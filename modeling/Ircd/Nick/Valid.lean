import Ircd.Nick.Steps

/-!
# Valid nicks

Which nicks become the name of a client. The four handlers cut a nick at different places before
they test it, and the test takes the empty nick for a clean one.
-/
namespace Ircd.Nick

open Chan (ClientId param)

/-- A nick that every server takes: not empty, not too long, of the right characters, and with no
digit and no `'-'` in front. -/
def ValidNick (nick : List Char) : Prop :=
  nick ≠ [] ∧ nick.length ≤ nickLen ∧ (∀ c ∈ nick, isNickChar c = true) ∧
    ∀ c, nick.head? = some c → c ≠ '-' ∧ c.isDigit = false

instance (nick : List Char) : Decidable (ValidNick nick) :=
  decidable_of_iff (nick ≠ [] ∧ nick.length ≤ nickLen ∧ nick.all isNickChar = true ∧
    nick.head?.all (fun c => c ≠ '-' ∧ c.isDigit = false) = true) (by
      unfold ValidNick
      cases nick <;> simp)

theorem validNick_iff {nick : List Char} (clean : cleanNickName nick = true) :
    ValidNick nick ↔ nick ≠ [] ∧ nick.length ≤ nickLen := by
  obtain ⟨front, all⟩ := Bool.and_eq_true_iff.mp clean
  constructor
  · rintro ⟨nonempty, short, -⟩
    exact ⟨nonempty, short⟩
  · rintro ⟨nonempty, short⟩
    refine ⟨nonempty, short, List.all_eq_true.mp all, fun c head => ?_⟩
    rw [head] at front
    simpa using front

/-! ### The handlers -/

/-- The handlers through which a client gets a nick. -/
inductive Handler where
  | mrNick
  | mNick
  | tsmNick
  | tsmClient
deriving DecidableEq

def Handler.run (h : Handler) (s : State) (clientP source : ClientId) (parv : List (List Char)) :
    Option State :=
  match h with
  | .mrNick => s.mrNick clientP source parv
  | .mNick => s.mNick clientP source parv
  | .tsmNick => s.tsmNick clientP source parv
  | .tsmClient => s.tsmClient clientP source parv

/-- The nick a handler reads: the text before a `'~'` or the whole text, cut to the length of a nick,
or to the length of the buffer. -/
def Handler.nick (h : Handler) (parv : List (List Char)) : List Char :=
  match h with
  | .mrNick => ((param parv 1).takeWhile (· != '~')).take nickLen
  | .mNick => (param parv 1).take nickLen
  | .tsmNick | .tsmClient => (param parv 1).take (nickLen + 1)

/-! ### Names that are given -/

/-- A client gets a name: it is a new one, or had another name before. -/
def Named (s s' : State) (c : ClientId) : Prop :=
  (s'.client c).name ≠ (s.client c).name ∨ (s.nextClient ≤ c ∧ c < s'.nextClient)

/-- No client gets a name other than `nick`. -/
def OnlyNames (nick : List Char) (s s' : State) : Prop :=
  ∀ c, Named s s' c → (s'.client c).name = nick

namespace OnlyNames

variable {nick : List Char} {s t u : State}

theorem ofSame (same : SameNames s t) : OnlyNames nick s t := by
  rintro c (changed | ⟨new, old⟩)
  · exact absurd (same.name c) changed
  · rw [same.nextClient] at old
    exact absurd new (Nat.not_le_of_lt old)

theorem after (same : SameNames s t) (names : OnlyNames nick t u) : OnlyNames nick s u := by
  intro c named
  apply names
  rwa [Named, same.name, same.nextClient]

theorem andThen (names : OnlyNames nick s t) (same : SameNames t u) : OnlyNames nick s u := by
  intro c named
  rw [Named, same.name, same.nextClient] at named
  rw [same.name]
  exact names c named

theorem trans (first : OnlyNames nick s t) (second : OnlyNames nick t u) : OnlyNames nick s u := by
  intro c named
  by_cases again : Named t u c
  · exact second c again
  · obtain ⟨same, notNew⟩ := not_or.mp again
    rw [not_not] at same
    rw [same]
    apply first
    rcases named with changed | ⟨later, before⟩
    · exact Or.inl (same ▸ changed)
    · exact Or.inr ⟨later, Nat.lt_of_not_le fun late => notNew ⟨late, before⟩⟩

/-- A nick fits into the name of a client. -/
theorem setName {client : Client} (short : nick.length ≤ nickLen + 1) :
    (client.setName nick).name = nick :=
  List.take_of_length_le (short.trans (by decide))

theorem setClient {c : ClientId} {client : Client} (name : client.name = nick) :
    OnlyNames nick s (s.setClient c client) := by
  rintro d (changed | ⟨new, old⟩)
  · by_cases same : d = c
    · subst same
      rw [State.client_setClient_self, name]
    · rw [State.client_setClient_of_ne _ same] at changed
      exact absurd rfl changed
  · exact absurd new (Nat.not_le_of_lt old)

theorem addToClientHashTable {name : List Char} {c : ClientId} :
    SameNames s (s.addToClientHashTable name c) := SameNames.ofEq rfl rfl rfl

theorem rename {source : ClientId} (short : nick.length ≤ nickLen + 1)
    (run : s.rename source nick = some t) : OnlyNames nick s t := by
  unfold State.rename at run
  rw [Option.bind_eq_bind, Option.bind_eq_some_iff] at run
  obtain ⟨s₁, unnamed, run⟩ := run
  obtain rfl := Option.some.inj run
  have same : SameNames s s₁ := by
    unfold State.unname at unnamed
    split at unnamed
    · exact SameNames.delFromClientHashTable unnamed
    · obtain rfl := Option.some.inj unnamed
      exact SameNames.refl s
  exact after same (andThen (setClient (setName short)) addToClientHashTable)

theorem newClient {client : Client} (short : nick.length ≤ nickLen + 1) :
    OnlyNames nick s (s.newClient client nick) := by
  refine andThen (t := s.makeClient (client.setName nick)) ?_ addToClientHashTable
  intro c named
  by_cases new : c = s.nextClient
  · subst new
    simpa [State.makeClient, State.setClient] using setName short
  · rcases named with changed | ⟨later, before⟩
    · simp [State.makeClient, State.setClient, new] at changed
    · exact absurd (Nat.le_antisymm (Nat.le_of_lt_succ before) later) new

end OnlyNames

/-! ### The paths to a new name -/

variable {s t : State} {clientP source : ClientId} {parv : List (List Char)} {newts : ℤ}
  {nick : List Char}

theorem setInitialNick_names (short : nick.length ≤ nickLen + 1)
    (run : s.setInitialNick clientP source nick = some t) : OnlyNames nick s t := by
  unfold State.setInitialNick at run
  dsimp only at run
  rw [Option.bind_eq_bind, Option.bind_eq_some_iff] at run
  obtain ⟨s₁, renamed, run⟩ := run
  refine OnlyNames.after ?_ (OnlyNames.andThen (OnlyNames.rename short renamed) ?_)
  · exact SameNames.setClient rfl
  · split at run
    · exact (Registers.registerLocalUser run).sameNames
    · obtain rfl := Option.some.inj run
      exact SameNames.refl _

theorem changeLocalNick_names (short : nick.length ≤ nickLen + 1)
    (run : s.changeLocalNick clientP source nick = some t) : OnlyNames nick s t := by
  unfold State.changeLocalNick at run
  dsimp only at run
  have counted : SameNames s (s.countNickChange source) := SameNames.setClient rfl
  refine OnlyNames.after counted ?_
  generalize s.countNickChange source = s₁ at run
  split at run
  · obtain rfl := Option.some.inj run
    exact OnlyNames.ofSame (SameNames.refl s₁)
  · split at run
    · split at run
      · cases run
      · rw [Option.bind_eq_bind, Option.bind_eq_some_iff] at run
        obtain ⟨s₂, deleted, run⟩ := run
        obtain rfl := Option.some.inj run
        refine OnlyNames.after (SameNames.trans ?_ (SameNames.delFromClientHashTable deleted)) ?_
        · exact SameNames.ofEq rfl rfl rfl
        exact OnlyNames.andThen (OnlyNames.setClient (OnlyNames.setName short))
          OnlyNames.addToClientHashTable
    · rw [Option.bind_eq_bind, Option.bind_eq_some_iff] at run
      obtain ⟨s₂, deleted, run⟩ := run
      obtain rfl := Option.some.inj run
      refine OnlyNames.after (SameNames.delFromClientHashTable deleted) ?_
      exact OnlyNames.andThen (OnlyNames.setClient (OnlyNames.setName short))
        OnlyNames.addToClientHashTable

theorem newNickFromServer_names (short : nick.length ≤ nickLen + 1)
    (run : s.newNickFromServer clientP parv newts nick = some t) : OnlyNames nick s t := by
  unfold State.newNickFromServer at run
  dsimp only at run
  have made : OnlyNames nick s (s.newClient (Client.ofNick clientP parv newts s.currentTime) nick) :=
    OnlyNames.newClient short
  refine OnlyNames.trans made ?_
  generalize s.newClient (Client.ofNick clientP parv newts s.currentTime) nick = s₁ at run ⊢
  split at run
  · refine OnlyNames.ofSame (SameNames.trans ?_ (Registers.doRemoteUser run).sameNames)
    exact SameNames.setClient rfl
  · exact OnlyNames.rename short run

theorem changeNickFromServer_names (short : nick.length ≤ nickLen + 1)
    (run : s.changeNickFromServer clientP source parv newts nick = some t) :
    OnlyNames nick s t := by
  unfold State.changeNickFromServer at run
  dsimp only at run
  split at run
  · refine OnlyNames.after ?_ (OnlyNames.rename short run)
    split
    · refine SameNames.trans (SameNames.setClient (c := source) ?_) (SameNames.ofEq rfl rfl rfl)
      rfl
    · exact SameNames.setClient rfl
  · exact OnlyNames.rename short run

theorem nickFromServer_names (short : nick.length ≤ nickLen + 1)
    (run : s.nickFromServer clientP source parv newts nick = some t) : OnlyNames nick s t := by
  unfold State.nickFromServer at run
  split at run
  · exact newNickFromServer_names short run
  · exact changeNickFromServer_names short run

theorem clientFromServer_names (short : nick.length ≤ nickLen + 1)
    (run : s.clientFromServer clientP parv newts nick = some t) : OnlyNames nick s t := by
  unfold State.clientFromServer at run
  dsimp only at run
  have made : OnlyNames nick s (s.newClient (Client.ofClient clientP parv newts) nick) :=
    OnlyNames.newClient short
  refine OnlyNames.trans made (OnlyNames.ofSame ?_)
  refine SameNames.trans ?_ (Registers.doRemoteUser run).sameNames
  exact SameNames.ofEq rfl rfl rfl

theorem killClientButone_same (one : Option ClientId) (c : ClientId) :
    SameNames s (s.killClientButone one c) := SameNames.ofEq rfl rfl rfl

theorem introCollides_names {target : ClientId} (short : nick.length ≤ nickLen + 1)
    (run : s.introCollides clientP source target parv newts nick = some t) :
    OnlyNames nick s t := by
  unfold State.introCollides at run
  dsimp only at run
  split at run
  · exact OnlyNames.ofSame ((killClientButone_same _ _).trans (exitKilled_same run).toSameNames)
  · split at run
    · obtain rfl := Option.some.inj run
      exact OnlyNames.ofSame (SameNames.refl s)
    · rw [Option.bind_eq_bind, Option.bind_eq_some_iff] at run
      obtain ⟨s₁, gone, run⟩ := run
      refine OnlyNames.after ((killClientButone_same _ _).trans (exitKilled_same gone).toSameNames) ?_
      split at run
      · exact nickFromServer_names short run
      · split at run
        · exact clientFromServer_names short run
        · obtain rfl := Option.some.inj run
          exact OnlyNames.ofSame (SameNames.refl s₁)

theorem changeCollides_names {target : ClientId} (short : nick.length ≤ nickLen + 1)
    (run : s.changeCollides clientP source target parv newts nick = some t) :
    OnlyNames nick s t := by
  unfold State.changeCollides at run
  dsimp only at run
  split at run
  · rw [Option.bind_eq_bind, Option.bind_eq_some_iff] at run
    obtain ⟨s₁, gone, run⟩ := run
    have killed := ((killClientButone_same none source).trans
      (killClientButone_same none target)).trans (exitKilled_same gone).toSameNames
    exact OnlyNames.ofSame (killed.trans (exitKilled_same run).toSameNames)
  · split at run
    · exact OnlyNames.ofSame ((killClientButone_same _ _).trans (exitKilled_same run).toSameNames)
    · rw [Option.bind_eq_bind, Option.bind_eq_some_iff] at run
      obtain ⟨s₁, gone, run⟩ := run
      refine OnlyNames.after ((killClientButone_same _ _).trans (exitKilled_same gone).toSameNames) ?_
      exact nickFromServer_names short run

theorem performNickCollides_names {target : ClientId} (short : nick.length ≤ nickLen + 1)
    (run : s.performNickCollides source clientP target parv newts nick = some t) :
    OnlyNames nick s t := by
  unfold State.performNickCollides at run
  split at run
  · exact introCollides_names short run
  · exact changeCollides_names short run

theorem takeNick_names (short : nick.length ≤ nickLen + 1)
    (run : s.takeNick clientP source parv newts nick = some t) : OnlyNames nick s t := by
  unfold State.takeNick at run
  rw [Option.bind_eq_bind, Option.bind_eq_some_iff] at run
  obtain ⟨found, -, run⟩ := run
  split at run
  · exact nickFromServer_names short run
  · split at run
    · rw [Option.bind_eq_bind, Option.bind_eq_some_iff] at run
      obtain ⟨s₁, gone, run⟩ := run
      exact OnlyNames.after (exitClient_same gone).toSameNames (nickFromServer_names short run)
    · split at run
      · split at run
        · exact nickFromServer_names short run
        · obtain rfl := Option.some.inj run
          exact OnlyNames.ofSame (SameNames.refl s)
      · exact performNickCollides_names short run

theorem takeClient_names (short : nick.length ≤ nickLen + 1)
    (run : s.takeClient clientP source parv newts nick = some t) : OnlyNames nick s t := by
  unfold State.takeClient at run
  rw [Option.bind_eq_bind, Option.bind_eq_some_iff] at run
  obtain ⟨found, -, run⟩ := run
  split at run
  · exact clientFromServer_names short run
  · split at run
    · rw [Option.bind_eq_bind, Option.bind_eq_some_iff] at run
      obtain ⟨s₁, gone, run⟩ := run
      exact OnlyNames.after (exitClient_same gone).toSameNames (clientFromServer_names short run)
    · exact performNickCollides_names short run

/-! ### What the handlers accept -/

/-- What a handler may do: clients that get a name get the nick it reads, if that is clean. -/
def Accepts (nick : List Char) (s s' : State) : Prop :=
  ∀ c, Named s s' c → (s'.client c).name = nick ∧ cleanNickName nick = true

theorem Accepts.ofSame (same : SameNames s t) : Accepts nick s t := fun c named =>
  absurd named (by
    rw [Named, same.name, same.nextClient]
    rintro (changed | ⟨later, before⟩)
    · exact changed rfl
    · exact absurd later (Nat.not_le_of_lt before))

theorem mrNick_accepts (run : s.mrNick clientP source parv = some t) :
    Accepts (Handler.mrNick.nick parv) s t := by
  have short : (Handler.mrNick.nick parv).length ≤ nickLen + 1 :=
    (List.length_take_le _ _).trans (Nat.le_succ _)
  unfold State.mrNick at run
  dsimp only at run
  split at run
  · obtain rfl := Option.some.inj run
    exact Accepts.ofSame (SameNames.refl s)
  · split at run
    · obtain rfl := Option.some.inj run
      exact Accepts.ofSame (SameNames.refl s)
    next clean =>
      split at run
      · obtain rfl := Option.some.inj run
        exact Accepts.ofSame (SameNames.refl s)
      · rw [Option.bind_eq_bind, Option.bind_eq_some_iff] at run
        obtain ⟨found, -, run⟩ := run
        split at run
        · exact fun c named =>
            ⟨setInitialNick_names short run c named, (Bool.not_eq_false _).mp clean⟩
        · obtain rfl := Option.some.inj run
          exact Accepts.ofSame (SameNames.refl s)

theorem mNick_accepts (run : s.mNick clientP source parv = some t) :
    Accepts (Handler.mNick.nick parv) s t := by
  have short : (Handler.mNick.nick parv).length ≤ nickLen + 1 :=
    (List.length_take_le _ _).trans (Nat.le_succ _)
  unfold State.mNick at run
  dsimp only at run
  split at run
  · obtain rfl := Option.some.inj run
    exact Accepts.ofSame (SameNames.refl s)
  · split at run
    · obtain rfl := Option.some.inj run
      exact Accepts.ofSame (SameNames.refl s)
    next clean =>
      have accepts : ∀ u, u.changeLocalNick clientP source (Handler.mNick.nick parv) = some t →
          SameNames s u → Accepts (Handler.mNick.nick parv) s t := fun u changed same c named =>
        ⟨OnlyNames.after same (changeLocalNick_names short changed) c named,
          (Bool.not_eq_false _).mp clean⟩
      split at run
      · obtain rfl := Option.some.inj run
        exact Accepts.ofSame (SameNames.refl s)
      · rw [Option.bind_eq_bind, Option.bind_eq_some_iff] at run
        obtain ⟨found, -, run⟩ := run
        split at run
        · exact accepts s run (SameNames.refl s)
        · split at run
          · split at run
            · exact accepts s run (SameNames.refl s)
            · obtain rfl := Option.some.inj run
              exact Accepts.ofSame (SameNames.refl s)
          · split at run
            · rw [Option.bind_eq_bind, Option.bind_eq_some_iff] at run
              obtain ⟨u, gone, run⟩ := run
              exact accepts u run (exitClient_same gone).toSameNames
            · obtain rfl := Option.some.inj run
              exact Accepts.ofSame (SameNames.refl s)

/-- A nick that is not clean does not come through, nor one that has been cut. -/
theorem checkCleanNick_same {newnick : List Char} {bad : Bool}
    (run : s.checkCleanNick clientP source nick newnick = some (bad, t)) :
    SameNames s t ∧ (bad = false → cleanNickName nick = true) := by
  unfold State.checkCleanNick at run
  dsimp only at run
  split at run
  · split at run
    · obtain ⟨u, gone, equal⟩ := Option.map_eq_some_iff.mp run
      obtain ⟨rfl, rfl⟩ := Prod.mk.inj equal
      refine ⟨SameNames.trans ?_ (exitKilled_same gone).toSameNames, Bool.noConfusion⟩
      exact SameNames.ofEq rfl rfl rfl
    · obtain ⟨rfl, rfl⟩ := Prod.mk.inj (Option.some.inj run)
      exact ⟨SameNames.ofEq rfl rfl rfl, Bool.noConfusion⟩
  next clean =>
    obtain ⟨rfl, rfl⟩ := Prod.mk.inj (Option.some.inj run)
    exact ⟨SameNames.refl s, fun _ => (Bool.not_eq_false _).mp (not_or.mp clean).1⟩

theorem checkLength_same (clientP : ClientId) (nick text : List Char) (size : ℕ) :
    SameNames s (s.checkLength clientP nick text size).2 := by
  unfold State.checkLength
  split
  · exact SameNames.ofEq rfl rfl rfl
  · exact SameNames.refl s

theorem checkUserHost_same (clientP : ClientId) (nick user host : List Char) :
    SameNames s (s.checkUserHost clientP nick user host).2 := by
  unfold State.checkUserHost
  dsimp only
  split
  · exact checkLength_same clientP nick user _
  · exact (checkLength_same clientP nick user _).trans (checkLength_same clientP nick host _)

theorem tsmNick_accepts (run : s.tsmNick clientP source parv = some t) :
    Accepts (Handler.tsmNick.nick parv) s t := by
  have short : (Handler.tsmNick.nick parv).length ≤ nickLen + 1 := List.length_take_le _ _
  unfold State.tsmNick at run
  dsimp only at run
  split at run
  · obtain rfl := Option.some.inj run
    exact Accepts.ofSame (SameNames.refl s)
  · rw [Option.bind_eq_bind, Option.bind_eq_some_iff] at run
    obtain ⟨⟨bad, s₁⟩, checked, run⟩ := run
    obtain ⟨same, clean⟩ := checkCleanNick_same checked
    dsimp only at run
    split at run
    · obtain rfl := Option.some.inj run
      exact Accepts.ofSame same
    next good =>
      have checkedText : SameNames s₁ (if parv.length = 9 then
          s₁.checkUserHost clientP ((param parv 1).take (nickLen + 1)) (param parv 5) (param parv 6)
        else (false, s₁)).2 := by
        split
        · exact checkUserHost_same clientP _ _ _
        · exact SameNames.refl s₁
      generalize (if parv.length = 9 then s₁.checkUserHost clientP
          ((param parv 1).take (nickLen + 1)) (param parv 5) (param parv 6)
        else (false, s₁)) = result at run checkedText
      split at run
      · obtain rfl := Option.some.inj run
        exact Accepts.ofSame (same.trans checkedText)
      · intro c named
        exact ⟨OnlyNames.after (same.trans checkedText) (takeNick_names short run) c named,
          clean ((Bool.not_eq_true _).mp good)⟩

theorem tsmClient_accepts (run : s.tsmClient clientP source parv = some t) :
    Accepts (Handler.tsmClient.nick parv) s t := by
  have short : (Handler.tsmClient.nick parv).length ≤ nickLen + 1 := List.length_take_le _ _
  unfold State.tsmClient at run
  dsimp only at run
  split at run
  · obtain rfl := Option.some.inj run
    exact Accepts.ofSame (SameNames.refl s)
  · rw [Option.bind_eq_bind, Option.bind_eq_some_iff] at run
    obtain ⟨⟨bad, s₁⟩, checked, run⟩ := run
    obtain ⟨same, clean⟩ := checkCleanNick_same checked
    dsimp only at run
    split at run
    · obtain rfl := Option.some.inj run
      exact Accepts.ofSame same
    next good =>
      have checkedText := checkUserHost_same (s := s₁) clientP (Handler.tsmClient.nick parv)
        (param parv 5) (param parv 6)
      split at run
      · obtain rfl := Option.some.inj run
        exact Accepts.ofSame (same.trans checkedText)
      · intro c named
        exact ⟨OnlyNames.after (same.trans checkedText) (takeClient_names short run) c named,
          clean ((Bool.not_eq_true _).mp good)⟩

theorem Handler.accepts (h : Handler) (run : h.run s clientP source parv = some t) :
    Accepts (h.nick parv) s t := by
  cases h with
  | mrNick => exact mrNick_accepts run
  | mNick => exact mNick_accepts run
  | tsmNick => exact tsmNick_accepts run
  | tsmClient => exact tsmClient_accepts run

/-- The name that a handler gives to a client is a valid nick exactly if the nick, where the handler
cuts it, is not empty and fits. -/
theorem accepted_valid_iff (h : Handler) (s s' : State) (clientP source : ClientId)
    (parv : List (List Char)) (run : h.run s clientP source parv = some s') (c : ClientId)
    (named : Named s s' c) :
    ValidNick (s'.client c).name ↔ h.nick parv ≠ [] ∧ (h.nick parv).length ≤ nickLen := by
  obtain ⟨name, clean⟩ := h.accepts run c named
  rw [name]
  exact validNick_iff clean

/-- `hub.test`, linked to `leaf.test` (1), and somebody (2) who has sent `NICK foo`. -/
def withNick : Option State :=
  (((State.started "hub.test".toList).addServer none "leaf.test".toList).connect).mrNick 2 2
    [[], "foo".toList]

theorem accepted_valid_iff_foo :
    ∃ s', Handler.mrNick.run ((State.started "hub.test".toList).connect) 1 1 [[], "foo~x".toList] =
      some s' ∧ ValidNick (s'.client 1).name := by
  have name : (Handler.mrNick.run ((State.started "hub.test".toList).connect) 1 1
      [[], "foo~x".toList]).map (fun s' => (s'.client 1).name) = some "foo".toList := by
    decide +kernel
  obtain ⟨s', run, name⟩ := Option.map_eq_some_iff.mp name
  have named : Named (State.started "hub.test".toList).connect s' 1 :=
    Or.inl (by rw [name]; decide)
  exact ⟨s', run, (accepted_valid_iff .mrNick _ s' 1 1 _ run 1 named).mpr (by decide)⟩

/-- `NICK :` takes a name away again, and a server may give a nick of eleven characters. -/
theorem bad_nicks_accepted :
    (¬ ∀ (h : Handler) (s s' : State) (clientP source : ClientId) (parv : List (List Char)),
      h.run s clientP source parv = some s' →
        ∀ c, Named s s' c → ValidNick (s'.client c).name) ∧
    ∃ s', Handler.tsmNick.run ((State.started "hub.test".toList).addServer none "leaf.test".toList)
        1 1 (["leaf.test", "abcdefghijk", "1", "5", "+i", "u", "h", "leaf.test", "x"].map
          String.toList) = some s' ∧
      s'.nextClient = 3 ∧ (s'.client 2).name.length = nickLen + 1 := by
  constructor
  · intro claimed
    have names : (withNick.bind fun s =>
        (Handler.mrNick.run s 2 2 [[], []]).map fun s' => ((s.client 2).name, (s'.client 2).name)) =
          some ("foo".toList, []) := by
      decide +kernel
    obtain ⟨s, -, names⟩ := Option.bind_eq_some_iff.mp names
    obtain ⟨s', run, names⟩ := Option.map_eq_some_iff.mp names
    obtain ⟨before, after⟩ := Prod.mk.inj names
    have valid := claimed .mrNick s s' 2 2 [[], []] run 2 (Or.inl (by rw [before, after]; decide))
    rw [after] at valid
    exact valid.1 rfl
  · have long : (Handler.tsmNick.run
        ((State.started "hub.test".toList).addServer none "leaf.test".toList) 1 1
        (["leaf.test", "abcdefghijk", "1", "5", "+i", "u", "h", "leaf.test", "x"].map
          String.toList)).map (fun s' => (s'.nextClient, (s'.client 2).name.length)) =
        some (3, nickLen + 1) := by
      decide +kernel
    obtain ⟨s', run, equal⟩ := Option.map_eq_some_iff.mp long
    obtain ⟨next, length⟩ := Prod.mk.inj equal
    exact ⟨s', run, next, length⟩

end Ircd.Nick
