import Ircd.Channel.Sjoin
import Ircd.Channel.Mode

/-!
# What a letter of MODE does

`Change` says all that one letter can do to the channel and the pending changes. The theorems
about MODE use it and do not look into the functions of the `ModeTable`.
-/
namespace Ircd.Chan

/-- The letter of a mask list. -/
def MaskType.letter : MaskType → Char
  | .ban => 'b'
  | .exception => 'e'
  | .invex => 'I'

/-- The change that a mask list notes down. -/
def MaskType.entry : MaskType → List Char → ChModeChange
  | .ban => fun mask => .forAll 'b' ∅ (some mask)
  | .exception => fun mask => .forOps 'e' {.ex} mask none
  | .invex => fun mask => .forOps 'I' {.ie} mask none

/-- A nick has been given that is the nick, or the id, of a member. -/
structure ModeContext.Targets (x : ModeContext) (r : ModeRun) (opnick : List Char)
    (targ : ClientId) : Prop where
  param : x.param r = some opnick
  found : x.s.findClient opnick = some targ
  member : x.s.isMember targ x.chptr = true

/-- Where a letter leaves things as they are. -/
structure Quiet (x : ModeContext) (dir : Dir) (r : ModeRun) (c : Char) : Prop where
  op : c = 'o' → (opTarget x dir r).2 = none
  halfop : c = 'h' → (halfopTarget x dir r).2 = none
  voice : c = 'v' → (voiceTarget x dir r).2 = none
  limit : c = 'l' → dir = .del → x.alev < chaccessHalfop

/-- What the letter `c` in the direction `dir` can make of the changes of `r`. -/
inductive Change (x : ModeContext) (dir : Dir) (r : ModeRun) : Char → Changes → Prop where
  | idle {c : Char} (quiet : Quiet x dir r c) : Change x dir r c r.changes
  | flag {mode : SimpleMode} {c : Char} (caps : Finset Cap) (letter : simpleOfLetter c = some mode) :
      Change x dir r c (r.changes.flag mode caps dir c)
  | mask {type : MaskType} {raw : List Char} {mask : Option (List Char)} {raw' : List Char}
      {y' : Changes} (given : x.param r = some raw)
      (read : mask = some raw ∧ raw' = raw ∨ (∃ n, mask = prettyMask n raw) ∧ raw' = cutSpace raw)
      (done : r.changes.mask x.s x.source type type.entry dir type.letter mask raw' = some y') :
      Change x dir r type.letter y'
  | op {opnick : List Char} {targ : ClientId} (targets : x.Targets r opnick targ)
      (checked : (opTarget x dir r).2 = some (opnick, targ))
      (new : dir = .add ∧ r.changes.ch.isChanOp targ = false ∨
        dir = .del ∧ r.changes.ch.isChanOp targ = true) :
      Change x dir r 'o' (r.changes.op dir 'o' opnick targ (x.s.client targ))
  | halfop {opnick : List Char} {targ : ClientId} (targets : x.Targets r opnick targ)
      (checked : (halfopTarget x dir r).2 = some (opnick, targ))
      (new : dir = .add ∧ r.changes.ch.isChanOp targ = false ∧ r.changes.ch.isHalfOp targ = false ∨
        dir = .del ∧ r.changes.ch.isChanOp targ = false ∧ r.changes.ch.isHalfOp targ = true) :
      Change x dir r 'h' (r.changes.halfop dir 'h' opnick targ (x.s.client targ))
  | voice {opnick : List Char} {targ : ClientId} (targets : x.Targets r opnick targ)
      (checked : (voiceTarget x dir r).2 = some (opnick, targ))
      (noHalfop : r.changes.ch.isChanOp targ = false → r.changes.ch.isHalfOp targ = false)
      (new : dir = .add ∧ r.changes.ch.isVoiced targ = false ∨
        dir = .del ∧ r.changes.ch.isVoiced targ = true) :
      Change x dir r 'v' (r.changes.voice dir 'v' opnick targ (x.s.client targ))
  | setLimit {limit : ℤ} (adds : dir = .add) (positive : 0 < limit) (int : InInt limit) :
      Change x dir r 'l' (r.changes.setLimit 'l' limit)
  | dropLimit (deletes : dir = .del) (access : chaccessHalfop ≤ x.alev) :
      Change x dir r 'l' (r.changes.dropLimit 'l')
  | setKey (key : List Char) (adds : dir = .add) : Change x dir r 'k' (r.changes.setKey 'k' key)
  | dropKey (deletes : dir = .del) : Change x dir r 'k' (r.changes.dropKey 'k')

section Functions

variable (x : ModeContext) (dir : Dir) {r r' : ModeRun}

/-- A letter that is none of those that `Quiet` asks about. -/
private theorem quiet_of_ne {c : Char} (op : c ≠ 'o') (halfop : c ≠ 'h') (voice : c ≠ 'v')
    (limit : c ≠ 'l') : Quiet x dir r c :=
  ⟨fun h => absurd h op, fun h => absurd h halfop, fun h => absurd h voice,
    fun h => absurd h limit⟩

theorem change_chmSimple {mode : SimpleMode} {c : Char} (letter : simpleOfLetter c = some mode)
    (other : c ≠ 'o' ∧ c ≠ 'h' ∧ c ≠ 'v' ∧ c ≠ 'l') :
    Change x dir r c (chmSimple mode x dir c r).changes := by
  unfold chmSimple
  split
  · exact .idle (quiet_of_ne x dir other.1 other.2.1 other.2.2.1 other.2.2.2)
  · exact .flag ∅ letter

theorem change_chmHideops : Change x dir r 'a' (chmHideops x dir 'a' r).changes := by
  unfold chmHideops
  split
  · exact .idle (quiet_of_ne x dir (by decide) (by decide) (by decide) (by decide))
  · exact .flag {.aops} (show simpleOfLetter 'a' = some .hideOps from rfl)

theorem change_chmMask (type : MaskType)
    (done : chmMask type type.entry x dir type.letter r = some r') :
    Change x dir r type.letter r'.changes := by
  have quiet : Quiet x dir r type.letter := by
    cases type <;> exact quiet_of_ne x dir (by decide) (by decide) (by decide) (by decide)
  unfold chmMask at done
  cases given : x.param r with
  | none =>
    rw [given] at done
    cases done
    exact .idle quiet
  | some raw =>
    simp only [given] at done
    split at done
    · cases done
      exact .idle quiet
    · split at done
      · cases done
        exact .idle quiet
      · split at done
        · obtain ⟨changes, masked, rfl⟩ := Option.map_eq_some_iff.mp done
          exact .mask given (Or.inl ⟨rfl, rfl⟩) masked
        · obtain ⟨changes, masked, rfl⟩ := Option.map_eq_some_iff.mp done
          exact .mask given (Or.inr ⟨⟨_, rfl⟩, rfl⟩) masked

/-- What the checks of `chm_op` let through. -/
theorem opTarget_cases : (opTarget x dir r).1.changes = r.changes ∧
    ∀ opnick targ, (opTarget x dir r).2 = some (opnick, targ) → x.Targets r opnick targ ∧
      (dir = .add ∧ r.changes.ch.isChanOp targ = false ∨
        dir = .del ∧ r.changes.ch.isChanOp targ = true) := by
  unfold opTarget
  split
  · exact ⟨rfl, fun _ _ none => nomatch none⟩
  · cases given : x.param r with
    | none => exact ⟨rfl, fun _ _ none => nomatch none⟩
    | some opnick =>
      simp only
      split
      · exact ⟨rfl, fun _ _ none => nomatch none⟩
      · rename_i query
        cases found : x.s.findClient opnick with
        | none => exact ⟨rfl, fun _ _ none => nomatch none⟩
        | some targ =>
          simp only
          split
          · exact ⟨rfl, fun _ _ none => nomatch none⟩
          · rename_i member
            split
            · exact ⟨rfl, fun _ _ none => nomatch none⟩
            · rename_i new
              split
              · exact ⟨rfl, fun _ _ none => nomatch none⟩
              · refine ⟨rfl, ?_⟩
                rintro _ _ ⟨⟩
                refine ⟨⟨given, found, by simpa using member⟩, ?_⟩
                cases dir <;> simp_all

theorem change_chmOp : Change x dir r 'o' (chmOp x dir 'o' r).changes := by
  obtain ⟨same, targets⟩ := opTarget_cases x dir (r := r)
  unfold chmOp
  split
  · rename_i r₁ checked
    rw [checked] at same
    rw [same]
    exact .idle ⟨fun _ => by rw [checked], fun h => absurd h (by decide),
      fun h => absurd h (by decide), fun h => absurd h (by decide)⟩
  · rename_i r₁ opnick targ checked
    obtain ⟨target, new⟩ := targets opnick targ (by rw [checked])
    rw [checked] at same
    dsimp only at same ⊢
    rw [same]
    exact .op target (by rw [checked]) new

/-- What the checks of `chm_halfop` let through. -/
theorem halfopTarget_cases : (halfopTarget x dir r).1.changes = r.changes ∧
    ∀ opnick targ, (halfopTarget x dir r).2 = some (opnick, targ) → x.Targets r opnick targ ∧
      (dir = .add ∧ r.changes.ch.isChanOp targ = false ∧ r.changes.ch.isHalfOp targ = false ∨
        dir = .del ∧ r.changes.ch.isChanOp targ = false ∧ r.changes.ch.isHalfOp targ = true) := by
  unfold halfopTarget
  by_cases access : x.alev <
      (if .paranoid ∈ r.changes.ch.mode.mode then chaccessChanop else chaccessHalfop)
  · rw [if_pos access]
    exact ⟨rfl, fun _ _ none => nomatch none⟩
  · rw [if_neg access]
    cases given : x.param r with
    | none => exact ⟨rfl, fun _ _ none => nomatch none⟩
    | some opnick =>
      by_cases query : dir = .query
      · simp only [if_pos query]
        exact ⟨trivial, fun _ _ none => nomatch none⟩
      · simp only [if_neg query]
        by_cases limited : (x.mine && decide (x.alev < chaccessChanop)) = true ∧ r.modeLimit > 4
        · rw [if_pos limited]
          exact ⟨rfl, fun _ _ none => nomatch none⟩
        · rw [if_neg limited]
          cases found : x.s.findClient opnick with
          | none => exact ⟨rfl, fun _ _ none => nomatch none⟩
          | some targ =>
            by_cases ignored : (x.mine && r.changes.ch.isChanOp targ) = true
            · simp only [if_pos ignored]
              exact ⟨trivial, fun _ _ none => nomatch none⟩
            · simp only [if_neg ignored]
              by_cases member : x.s.isMember targ x.chptr = true
              · simp only [member, Bool.not_true, Bool.false_eq_true, if_false]
                split
                · exact ⟨rfl, fun _ _ none => nomatch none⟩
                · rename_i new
                  refine ⟨rfl, ?_⟩
                  rintro _ _ ⟨⟩
                  refine ⟨⟨given, found, member⟩, ?_⟩
                  cases dir <;> simp_all
              · simp only [member, Bool.not_false, if_true]
                exact ⟨trivial, fun _ _ none => nomatch none⟩

theorem change_chmHalfop : Change x dir r 'h' (chmHalfop x dir 'h' r).changes := by
  obtain ⟨same, targets⟩ := halfopTarget_cases x dir (r := r)
  unfold chmHalfop
  split
  · rename_i r₁ checked
    rw [checked] at same
    rw [same]
    exact .idle ⟨fun h => absurd h (by decide), fun _ => by rw [checked],
      fun h => absurd h (by decide), fun h => absurd h (by decide)⟩
  · rename_i r₁ opnick targ checked
    obtain ⟨target, new⟩ := targets opnick targ (by rw [checked])
    rw [checked] at same
    dsimp only at same ⊢
    rw [same]
    exact .halfop target (by rw [checked]) new

/-- What the checks of `chm_voice` let through. -/
theorem voiceTarget_cases : (voiceTarget x dir r).1.changes = r.changes ∧
    ∀ opnick targ, (voiceTarget x dir r).2 = some (opnick, targ) → x.Targets r opnick targ ∧
      (r.changes.ch.isChanOp targ = false → r.changes.ch.isHalfOp targ = false) ∧
      (dir = .add ∧ r.changes.ch.isVoiced targ = false ∨
        dir = .del ∧ r.changes.ch.isVoiced targ = true) := by
  unfold voiceTarget
  split
  · exact ⟨rfl, fun _ _ none => nomatch none⟩
  · cases given : x.param r with
    | none => exact ⟨rfl, fun _ _ none => nomatch none⟩
    | some opnick =>
      simp only
      split
      · exact ⟨rfl, fun _ _ none => nomatch none⟩
      · rename_i query
        cases found : x.s.findClient opnick with
        | none => exact ⟨rfl, fun _ _ none => nomatch none⟩
        | some targ =>
          simp only
          split
          · exact ⟨rfl, fun _ _ none => nomatch none⟩
          · rename_i member
            split
            · exact ⟨rfl, fun _ _ none => nomatch none⟩
            · rename_i new
              refine ⟨rfl, ?_⟩
              rintro _ _ ⟨⟩
              refine ⟨⟨given, found, by simpa using member⟩, fun noOp => ?_, ?_⟩
              · simp_all
              · cases dir <;> simp_all

theorem change_chmVoice : Change x dir r 'v' (chmVoice x dir 'v' r).changes := by
  obtain ⟨same, targets⟩ := voiceTarget_cases x dir (r := r)
  unfold chmVoice
  split
  · rename_i r₁ checked
    rw [checked] at same
    rw [same]
    exact .idle ⟨fun h => absurd h (by decide), fun h => absurd h (by decide),
      fun _ => by rw [checked], fun h => absurd h (by decide)⟩
  · rename_i r₁ opnick targ checked
    obtain ⟨target, noHalfop, new⟩ := targets opnick targ (by rw [checked])
    rw [checked] at same
    dsimp only at same ⊢
    rw [same]
    exact .voice target (by rw [checked]) noHalfop new

theorem change_chmLimit : Change x dir r 'l' (chmLimit x dir 'l' r).changes := by
  have quiet : (dir = .del → x.alev < chaccessHalfop) → Quiet x dir r 'l' := fun access =>
    ⟨fun h => absurd h (by decide), fun h => absurd h (by decide), fun h => absurd h (by decide),
      fun _ => access⟩
  unfold chmLimit
  split
  · rename_i access
    exact .idle (quiet fun _ => access)
  · rename_i access
    cases dir with
    | query => exact .idle (quiet fun del => nomatch del)
    | del => exact .dropLimit rfl (not_lt.mp access)
    | add =>
      cases x.param r with
      | none => exact .idle (quiet fun del => nomatch del)
      | some lstr =>
        simp only
        split
        · exact .idle (quiet fun del => nomatch del)
        · rename_i positive
          exact .setLimit rfl (not_le.mp positive) (toInt_inInt _)

theorem change_chmKey (done : chmKey x dir 'k' r = some r') : Change x dir r 'k' r'.changes := by
  have quiet : Quiet x dir r 'k' :=
    quiet_of_ne x dir (by decide) (by decide) (by decide) (by decide)
  unfold chmKey at done
  split at done
  · cases done
    exact .idle quiet
  · cases dir with
    | query =>
      cases done
      exact .idle quiet
    | del =>
      cases done
      exact .dropKey rfl
    | add =>
      cases given : x.param r with
      | none =>
        rw [given] at done
        cases done
        exact .idle quiet
      | some key =>
        simp only [given] at done
        by_cases space : (if x.mine then fixKey key else fixKeyOld key).head? = some ' '
        · rw [if_pos space] at done
          cases done
        · rw [if_neg space] at done
          obtain rfl := Option.some.inj done
          exact .setKey _ rfl

/-- One letter. -/
theorem change_modeTable {c : Char} (done : modeTable x dir c r = some r') :
    Change x dir r c r'.changes := by
  unfold modeTable at done
  split at done
  · exact change_chmMask x dir .invex done
  · cases done
    exact change_chmHideops x dir
  · exact change_chmMask x dir .ban done
  · exact change_chmMask x dir .exception done
  · cases done
    exact change_chmHalfop x dir
  · cases done
    exact change_chmSimple x dir rfl (by decide)
  · exact change_chmKey x dir done
  · cases done
    exact change_chmLimit x dir
  · cases done
    exact change_chmSimple x dir rfl (by decide)
  · cases done
    exact change_chmSimple x dir rfl (by decide)
  · cases done
    exact change_chmOp x dir
  · cases done
    exact change_chmSimple x dir rfl (by decide)
  · cases done
    exact change_chmSimple x dir rfl (by decide)
  · cases done
    exact change_chmSimple x dir rfl (by decide)
  · cases done
    exact change_chmVoice x dir
  · cases done
    exact .idle (quiet_of_ne x dir ‹_› ‹_› ‹_› ‹_›)

end Functions

/-- A property that every letter keeps is kept by the whole command. -/
theorem readLetters_keeps {x : ModeContext} {P : Changes → Prop}
    (step : ∀ dir r c y, Change x dir r c y → P r.changes → P y) {letters : List Char}
    {dir : Dir} {r r' : ModeRun} (done : readLetters x letters dir r = some r')
    (before : P r.changes) : P r'.changes := by
  induction letters generalizing dir r with
  | nil =>
    cases done
    exact before
  | cons c letters ih =>
    rw [readLetters] at done
    split at done
    · exact ih done before
    · cases letter : modeTable x dir c r with
      | none =>
        rw [letter] at done
        cases done
      | some r₁ =>
        rw [letter] at done
        exact ih done (step _ _ _ _ (change_modeTable x dir letter) before)

/-! ### The lists of members -/

@[simp] theorem Changes.record_ch (y : Changes) (dir : Dir) (p : ChModeChange → Bool)
    (e : ChModeChange) : (y.record dir p e).ch = y.ch := by
  unfold Changes.record
  split <;> split <;> rfl

/-- The lists of members and the counters are the same. -/
def Channel.SameMembers (ch ch' : Channel) : Prop :=
  ch'.members = ch.members ∧ ch'.locMembers = ch.locMembers ∧ ch'.users = ch.users ∧
    ch'.locusers = ch.locusers

theorem Channel.sameMembers_setMasks (ch : Channel) (type : MaskType) (list : List Ban) (n : ℤ) :
    ch.SameMembers { ch.setMasks type list with numMask := n } := by
  cases type <;> exact ⟨rfl, rfl, rfl, rfl⟩

theorem State.addId_some {s : State} {source : ClientId} {ch ch' : Channel}
    {banid : Option (List Char)} {type : MaskType} {mask : List Char}
    (added : s.addId source ch banid type = some (some (ch', mask))) :
    ∃ ban : Ban, ban.banstr = mask ∧
      ch' = { ch.setMasks type (ban :: ch.masks type) with numMask := ch.numMask + 1 } := by
  unfold State.addId at added
  dsimp only at added
  split at added
  · cases added
  · cases banid with
    | none => cases added
    | some banid =>
      dsimp only at added
      generalize (if (s.client source).mine then collapse banid else banid) = mask' at added
      split at added
      · cases added
      · cases added
        exact ⟨_, rfl, rfl⟩

theorem Channel.delId_some {ch ch' : Channel} {banid : Option (List Char)} {type : MaskType}
    (deleted : ch.delId banid type = some ch') :
    ∃ mask n, banid = some mask ∧ (ch.masks type).any (fun ban => decide (IrcEq mask ban.banstr)) ∧
      ch' = { ch.setMasks type ((ch.masks type).eraseP fun ban => decide (IrcEq mask ban.banstr)) with
        numMask := n } := by
  unfold Channel.delId at deleted
  cases banid with
  | none => cases deleted
  | some mask =>
    dsimp only at deleted
    split at deleted
    · rename_i found
      exact ⟨mask, _, rfl, found, (Option.some.inj deleted).symm⟩
    · cases deleted

/-- What a letter with a mask does: nothing, or the mask is added, or one that is equal to it
up to case is deleted. -/
theorem Changes.mask_cases {y y' : Changes} {s : State} {source : ClientId} {type : MaskType}
    {entry : List Char → ChModeChange} {dir : Dir} {c : Char} {mask : Option (List Char)}
    {raw : List Char} (done : y.mask s source type entry dir c mask raw = some y') :
    y' = y ∨
      (∃ (ban : Ban) (n : ℤ), dir = .add ∧ y' = { y with ch :=
          { y.ch.setMasks type (ban :: y.ch.masks type) with numMask := n } }.record .add
            (·.isFor [c] ban.banstr) (entry ban.banstr)) ∨
      ∃ (mask : List Char) (n : ℤ), dir = .del ∧
        (y.ch.masks type).any (fun ban => decide (IrcEq mask ban.banstr)) ∧
        y' = { y with ch := { y.ch.setMasks type ((y.ch.masks type).eraseP fun ban =>
            decide (IrcEq mask ban.banstr)) with numMask := n } }.record .del
              (·.isFor [c] mask) (entry mask) := by
  unfold Changes.mask at done
  cases dir with
  | query =>
    cases done
    exact Or.inl rfl
  | add =>
    dsimp only at done
    cases added : s.addId source y.ch mask type with
    | none =>
      rw [added] at done
      cases done
    | some result =>
      rw [added] at done
      cases result with
      | none =>
        cases done
        exact Or.inl rfl
      | some pair =>
        obtain ⟨ch, mask'⟩ := pair
        obtain ⟨ban, rfl, rfl⟩ := State.addId_some added
        exact Or.inr (Or.inl ⟨ban, _, rfl, (Option.some.inj done).symm⟩)
  | del =>
    dsimp only at done
    cases first : y.ch.delId mask type with
    | some ch =>
      rw [first] at done
      obtain ⟨mask', n, rfl, found, rfl⟩ := Channel.delId_some first
      exact Or.inr (Or.inr ⟨mask', n, rfl, found, (Option.some.inj done).symm⟩)
    | none =>
      rw [first] at done
      cases second : y.ch.delId (some raw) type with
      | some ch =>
        rw [second] at done
        obtain ⟨mask', n, equal, found, rfl⟩ := Channel.delId_some second
        obtain rfl := Option.some.inj equal
        exact Or.inr (Or.inr ⟨raw, n, rfl, found, (Option.some.inj done).symm⟩)
      | none =>
        rw [second] at done
        cases done
        exact Or.inl rfl

/-- What a letter can do to the channel: set its modes, its limit or its key, change a list of masks, move a member. -/
inductive Touches (x : ModeContext) (c : Char) (ch : Channel) : Channel → Prop where
  | modes (mode : Mode) : Touches x c ch { ch with mode := mode }
  | masks {type : MaskType} (letter : c = type.letter) (list : List Ban) (n : ℤ) :
      Touches x c ch { ch.setMasks type list with numMask := n }
  | member {targ : ClientId} (isMember : x.s.isMember targ x.chptr = true) (rank : Rank) :
      Touches x c ch (ch.changeMembership rank targ (x.s.client targ).mine)

theorem Change.touches {x : ModeContext} {dir : Dir} {r : ModeRun} {y : Changes} {c : Char}
    (change : Change x dir r c y) : Touches x c r.changes.ch y.ch := by
  have same : Touches x c r.changes.ch r.changes.ch := .modes r.changes.ch.mode
  cases change with
  | idle => exact same
  | flag caps letter =>
    unfold Changes.flag
    split
    · exact same
    · dsimp only
      split
      · exact same
      · rw [Changes.record_ch]
        exact .modes _
    · dsimp only
      split
      · exact same
      · rw [Changes.record_ch]
        exact .modes _
  | mask given read done =>
    rcases Changes.mask_cases done with rfl | ⟨ban, n, -, rfl⟩ | ⟨mask, n, -, -, rfl⟩
    · exact same
    · rw [Changes.record_ch]
      exact .masks rfl _ _
    · rw [Changes.record_ch]
      exact .masks rfl _ _
  | op targets checked new =>
    unfold Changes.op
    split <;> exact .member targets.member _
  | halfop targets checked new =>
    unfold Changes.halfop
    split
    · dsimp only
      -- a halfop that the same MODE has just dehopped is not moved
      split
      · exact .member targets.member _
      · exact same
    · exact .member targets.member _
  | voice targets checked noHalfop new =>
    unfold Changes.voice
    split <;> exact .member targets.member _
  | setLimit adds positive int => exact .modes _
  | dropLimit deletes access =>
    unfold Changes.dropLimit
    split
    · exact same
    · rw [Changes.record_ch]
      exact .modes _
  | setKey key adds => exact .modes _
  | dropKey deletes =>
    unfold Changes.dropKey
    split
    · exact same
    · exact .modes _

/-- What a letter does to the lists of members: nothing, or it moves one member. -/
theorem Change.members {x : ModeContext} {dir : Dir} {r : ModeRun} {y : Changes} {c : Char}
    (change : Change x dir r c y) : r.changes.ch.SameMembers y.ch ∨
      ∃ targ toRank, x.s.isMember targ x.chptr = true ∧
        y.ch = r.changes.ch.changeMembership toRank targ (x.s.client targ).mine := by
  have touches := change.touches
  generalize y.ch = ch at touches
  cases touches with
  | modes mode => exact Or.inl ⟨rfl, rfl, rfl, rfl⟩
  | masks letter list n => exact Or.inl (Channel.sameMembers_setMasks _ _ _ _)
  | member isMember rank => exact Or.inr ⟨_, rank, isMember, rfl⟩

end Ircd.Chan
