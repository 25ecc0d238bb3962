import Ircd.Channel.BanUndo
import Mathlib.Logic.Relation

/-!
# The lists of masks over many commands

Which masks keep the lists of every channel free of duplicates, whatever MODE commands clients
and servers send, and that `num_mask` counts the entries.
-/
namespace Ircd.Chan

/-! ### What a command asks to set -/

/-- The mask that `add_id` looks for and puts on the list, for a letter that adds. -/
def ModeContext.newMask (x : ModeContext) (r : ModeRun) : Option (List Char) :=
  (x.maskParam .add r).bind fun raw =>
    (if (x.s.client x.clientP).status = .server then some raw else prettyMask r.maskPos raw).map fun mask =>
      if x.mine then collapse mask else mask

/-- The masks that the letters ask to set, each as `add_id` would store it. -/
def masksSet (x : ModeContext) : List Char → Dir → ModeRun → List (List Char)
  | [], _, _ => []
  | c :: letters, dir, r =>
    if c = '+' ∨ c = '-' ∨ c = '=' then masksSet x letters (dir.read c) r
    else
      (if (maskType c).isSome ∧ dir = .add then (x.newMask r).toList else []) ++
        match modeTable x dir c r with
        | none => []
        | some r => masksSet x letters dir r

def ModeCommand.masksSet (m : ModeCommand) (s : State) : List (List Char) :=
  Chan.masksSet (m.context s) (m.parv.headD []) .add (m.start s)

/-! ### Lists that are in order -/

/-- No two entries of a list have the same text up to case, and `num_mask` counts them all. -/
structure Channel.Tidy (ch : Channel) : Prop where
  distinct : ∀ type, (ch.masks type).Pairwise fun ban other => ¬IrcEq ban.banstr other.banstr
  counted : ch.numMask = ch.banlist.length + ch.exceptlist.length + ch.invexlist.length

/-- The masks on the lists are of this set. -/
def Channel.MasksIn (masks : Set (List Char)) (ch : Channel) : Prop :=
  ∀ type, ∀ ban ∈ ch.masks type, ban.banstr ∈ masks

/-- The lists and their count are the same. -/
def Channel.SameMasks (ch ch' : Channel) : Prop := (∀ type, ch'.masks type = ch.masks type) ∧ ch'.numMask = ch.numMask

/-- One step of the server: a MODE that asks to set only masks of the set, or anything that leaves the lists alone or
empties all three. -/
inductive MaskStep (masks : Set (List Char)) (s s' : State) : Prop where
  | mode (m : ModeCommand) (inside : ∀ mask ∈ m.masksSet s, mask ∈ masks) (done : s.mode m = some s')
  | other (quiet : ∀ chptr, (s.channel chptr).SameMasks (s'.channel chptr) ∨
      (∀ type, (s'.channel chptr).masks type = []) ∧ (s'.channel chptr).numMask = 0)

/-- The masks of the set that are equal up to case match one another. -/
def CoverEqual (masks : Set (List Char)) : Prop :=
  ∀ mask ∈ masks, ∀ mask' ∈ masks, IrcEq mask mask' → ircMatch mask mask' = true

/-! ### One letter -/

theorem Channel.sameMasks_changeMembership (ch : Channel) (rank : Rank) (who : ClientId) (mine : Bool) :
    ch.SameMasks (ch.changeMembership rank who mine) := by
  refine ⟨fun type => ?_, rfl⟩
  cases type <;> rfl

theorem Channel.SameMasks.tidy {ch ch' : Channel} {masks : Set (List Char)} (same : ch.SameMasks ch')
    (tidy : ch.Tidy ∧ ch.MasksIn masks) : ch'.Tidy ∧ ch'.MasksIn masks := by
  obtain ⟨lists, count⟩ := same
  have ban : ch'.banlist = ch.banlist := lists .ban
  have exception : ch'.exceptlist = ch.exceptlist := lists .exception
  have invex : ch'.invexlist = ch.invexlist := lists .invex
  refine ⟨⟨fun type => ?_, ?_⟩, fun type => ?_⟩
  · rw [lists type]
    exact tidy.1.distinct type
  · rw [count, ban, exception, invex]
    exact tidy.1.counted
  · rw [lists type]
    exact tidy.2 type

/-- Only the letters of the lists touch them. -/
theorem Change.sameMasks {x : ModeContext} {dir : Dir} {r : ModeRun} {y : Changes} {c : Char}
    (change : Change x dir r c y) (other : maskType c = none) : r.changes.ch.SameMasks y.ch := by
  have touches := change.touches
  generalize y.ch = ch at touches
  cases touches with
  | modes mode => exact ⟨fun type => by cases type <;> rfl, rfl⟩
  | @masks type letter list n =>
    subst letter
    cases type <;> cases other
  | member isMember rank => exact Channel.sameMasks_changeMembership _ _ _ _

/-- An entry is added where nothing on the list covers it. -/
theorem addId_uncovered {s : State} {source : ClientId} {ch : Channel} {banid : Option (List Char)} {type : MaskType}
    {pair : Channel × List Char} (added : s.addId source ch banid type = some (some pair)) :
    ∃ ban : Ban, banid.map (fun mask => if (s.client source).mine then collapse mask else mask) = some ban.banstr ∧
      (∀ old ∈ ch.masks type, ircMatch old.banstr ban.banstr = false) ∧
      pair.1 = { ch.setMasks type (ban :: ch.masks type) with numMask := ch.numMask + 1 } := by
  unfold State.addId at added
  dsimp only at added
  split at added
  · cases added
  · cases banid with
    | none => cases added
    | some banid =>
      dsimp only at added
      rw [Option.map_some]
      generalize (if (s.client source).mine then collapse banid else banid) = stored at added ⊢
      split at added
      · cases added
      · next free =>
        cases added
        rw [Bool.not_eq_true, List.any_eq_false] at free
        exact ⟨⟨stored, (s.client source).whoSet, s.currentTime⟩, rfl,
          fun old inside => Bool.eq_false_iff.mpr (free old inside), rfl⟩

/-- What becomes of the channel once the mask has been read. -/
theorem Changes.mask_channel {y y' : Changes} {s : State} {source : ClientId} {type : MaskType}
    {entry : List Char → ChModeChange} {dir : Dir} {c : Char} {mask : Option (List Char)} {raw : List Char}
    (done : y.mask s source type entry dir c mask raw = some y') :
    y'.ch = y.ch ∨
      (∃ ban : Ban, dir = .add ∧
        mask.map (fun mask => if (s.client source).mine then collapse mask else mask) = some ban.banstr ∧
        (∀ old ∈ y.ch.masks type, ircMatch old.banstr ban.banstr = false) ∧
        y'.ch = { y.ch.setMasks type (ban :: y.ch.masks type) with numMask := y.ch.numMask + 1 }) ∨
      ∃ text, (∃ ban ∈ y.ch.masks type, IrcEq text ban.banstr) ∧
        y'.ch = { y.ch.setMasks type ((y.ch.masks type).eraseP fun ban => decide (IrcEq text ban.banstr)) with
          numMask := if y.ch.numMask > 0 then y.ch.numMask - 1 else 0 } := by
  have deletes : ∀ {text : List Char} {ch' : Channel}, y.ch.delId (some text) type = some ch' →
      (∃ ban ∈ y.ch.masks type, IrcEq text ban.banstr) ∧
        ch' = { y.ch.setMasks type ((y.ch.masks type).eraseP fun ban => decide (IrcEq text ban.banstr)) with
          numMask := if y.ch.numMask > 0 then y.ch.numMask - 1 else 0 } := by
    intro text ch' deleted
    rw [Channel.delId] at deleted
    dsimp only at deleted
    split at deleted
    · next found =>
      obtain ⟨ban, inside, equal⟩ := List.any_eq_true.mp found
      exact ⟨⟨ban, inside, of_decide_eq_true equal⟩, (Option.some.inj deleted).symm⟩
    · cases deleted
  unfold Changes.mask at done
  cases dir with
  | query =>
    cases done
    exact .inl rfl
  | add =>
    dsimp only at done
    cases added : s.addId source y.ch mask type with
    | none =>
      rw [added] at done
      cases done
    | some result =>
      rw [added] at done
      cases result with
      | none =>
        cases done
        exact .inl rfl
      | some pair =>
        obtain ⟨ban, stored, free, whole⟩ := addId_uncovered added
        obtain rfl := Option.some.inj done
        exact .inr (.inl ⟨ban, rfl, stored, free, (Changes.record_ch _ _ _ _).trans whole⟩)
  | del =>
    dsimp only at done
    -- the mask is tried first, and then the text as it was given
    cases first : y.ch.delId mask type with
    | some ch' =>
      rw [first] at done
      obtain rfl := Option.some.inj done
      cases mask with
      | none => cases first
      | some text =>
        obtain ⟨found, rfl⟩ := deletes first
        exact .inr (.inr ⟨text, found, Changes.record_ch _ _ _ _⟩)
    | none =>
      rw [first] at done
      cases second : y.ch.delId (some raw) type with
      | some ch' =>
        rw [second] at done
        obtain rfl := Option.some.inj done
        obtain ⟨found, rfl⟩ := deletes second
        exact .inr (.inr ⟨raw, found, Changes.record_ch _ _ _ _⟩)
      | none =>
        rw [second] at done
        cases done
        exact .inl rfl

/-- What a letter of the lists does to the channel. -/
theorem chmMask_channel {x : ModeContext} {type : MaskType} {entry : List Char → ChModeChange} {dir : Dir} {c : Char}
    {r r' : ModeRun} (done : chmMask type entry x dir c r = some r') :
    r'.changes.ch = r.changes.ch ∨
      (∃ ban : Ban, dir = .add ∧ x.newMask r = some ban.banstr ∧
        (∀ old ∈ r.changes.ch.masks type, ircMatch old.banstr ban.banstr = false) ∧
        r'.changes.ch = { r.changes.ch.setMasks type (ban :: r.changes.ch.masks type) with
          numMask := r.changes.ch.numMask + 1 }) ∨
      ∃ mask, (∃ ban ∈ r.changes.ch.masks type, IrcEq mask ban.banstr) ∧
        r'.changes.ch = { r.changes.ch.setMasks type ((r.changes.ch.masks type).eraseP fun ban =>
            decide (IrcEq mask ban.banstr)) with
          numMask := if r.changes.ch.numMask > 0 then r.changes.ch.numMask - 1 else 0 } := by
  unfold chmMask at done
  cases given_ : x.param r with
  | none =>
    rw [given_] at done
    cases done
    exact .inl rfl
  | some raw =>
    rw [given_] at done
    dsimp only at done
    split at done
    · cases done
      exact .inl rfl
    · next allowed =>
      split at done
      · cases done
        exact .inl rfl
      · next room =>
        have taken : dir = .add → x.maskParam .add r = some raw := by
          rintro rfl
          rw [ModeContext.maskParam, if_neg, given_]
          rintro (query | access | full)
          · exact allowed (.inl query)
          · exact allowed (.inr access)
          · exact room full
        split at done
        · next server =>
          obtain ⟨changes, masked, rfl⟩ := Option.map_eq_some_iff.mp done
          obtain same | ⟨ban, adds, stored, free, whole⟩ | removed := Changes.mask_channel masked
          · exact .inl same
          · refine .inr (.inl ⟨ban, adds, ?_, free, whole⟩)
            rw [ModeContext.newMask, taken adds, Option.bind_some, if_pos server]
            exact stored
          · exact .inr (.inr removed)
        · next client =>
          obtain ⟨changes, masked, rfl⟩ := Option.map_eq_some_iff.mp done
          obtain same | ⟨ban, adds, stored, free, whole⟩ | removed := Changes.mask_channel masked
          · exact .inl same
          · refine .inr (.inl ⟨ban, adds, ?_, free, whole⟩)
            rw [ModeContext.newMask, taken adds, Option.bind_some, if_neg client]
            exact stored
          · exact .inr (.inr removed)

theorem Channel.masks_setMasks_eq (ch : Channel) (type type' : MaskType) (list : List Ban) (n : ℤ) :
    ({ ch.setMasks type list with numMask := n } : Channel).masks type' =
      if type' = type then list else ch.masks type' := by
  cases type <;> cases type' <;> rfl

/-- The entries of the three lists. -/
theorem Channel.count_setMasks (ch : Channel) (type : MaskType) (list : List Ban) (n : ℤ) :
    let ch' := { ch.setMasks type list with numMask := n }
    (ch'.banlist.length + ch'.exceptlist.length + ch'.invexlist.length : ℤ) + (ch.masks type).length =
      ch.banlist.length + ch.exceptlist.length + ch.invexlist.length + list.length := by
  cases type <;> simp only [Channel.setMasks, Channel.masks] <;> omega

theorem Channel.Tidy.insert {masks : Set (List Char)} (cover : CoverEqual masks) {ch : Channel} (tidy : ch.Tidy)
    (within : ch.MasksIn masks) {type : MaskType} {ban : Ban} (member : ban.banstr ∈ masks)
    (free : ∀ old ∈ ch.masks type, ircMatch old.banstr ban.banstr = false) :
    let ch' := { ch.setMasks type (ban :: ch.masks type) with numMask := ch.numMask + 1 }
    ch'.Tidy ∧ ch'.MasksIn masks := by
  intro ch'
  have lists : ∀ type', ch'.masks type' = if type' = type then ban :: ch.masks type else ch.masks type' :=
    fun type' => ch.masks_setMasks_eq type type' _ _
  refine ⟨⟨fun type' => ?_, ?_⟩, fun type' => ?_⟩
  · rw [lists]
    split
    · refine List.pairwise_cons.mpr ⟨fun old inside equal => ?_, tidy.distinct type⟩
      -- an entry that is equal up to case would have covered the new one
      have covers := cover _ (within type old inside) _ member equal.symm
      rw [free old inside] at covers
      cases covers
    · exact tidy.distinct type'
  · have count : (ch'.banlist.length + ch'.exceptlist.length + ch'.invexlist.length : ℤ) + (ch.masks type).length =
        ch.banlist.length + ch.exceptlist.length + ch.invexlist.length + (ban :: ch.masks type).length :=
      ch.count_setMasks type _ _
    have before := tidy.counted
    change ch.numMask + 1 = _
    rw [List.length_cons] at count
    push_cast at count
    omega
  · rw [lists]
    split
    · rintro old (⟨⟩ | ⟨_, inside⟩)
      · exact member
      · exact within type old inside
    · exact within type'

theorem Channel.Tidy.remove {masks : Set (List Char)} {ch : Channel} (tidy : ch.Tidy) (within : ch.MasksIn masks)
    {type : MaskType} {text : List Char} (found : ∃ ban ∈ ch.masks type, IrcEq text ban.banstr) :
    let ch' := { ch.setMasks type ((ch.masks type).eraseP fun ban => decide (IrcEq text ban.banstr)) with
      numMask := if ch.numMask > 0 then ch.numMask - 1 else 0 }
    ch'.Tidy ∧ ch'.MasksIn masks := by
  intro ch'
  have sublist : ((ch.masks type).eraseP fun ban => decide (IrcEq text ban.banstr)).Sublist (ch.masks type) :=
    List.eraseP_sublist
  have lists : ∀ type', ch'.masks type' =
      if type' = type then (ch.masks type).eraseP fun ban => decide (IrcEq text ban.banstr) else ch.masks type' :=
    fun type' => ch.masks_setMasks_eq type type' _ _
  refine ⟨⟨fun type' => ?_, ?_⟩, fun type' => ?_⟩
  · rw [lists]
    split
    · exact (tidy.distinct type).sublist sublist
    · exact tidy.distinct type'
  · obtain ⟨ban, inside, equal⟩ := found
    have shorter := List.length_eraseP_of_mem inside (p := fun ban => decide (IrcEq text ban.banstr))
      (decide_eq_true equal)
    have positive := List.length_pos_of_mem inside
    have count : (ch'.banlist.length + ch'.exceptlist.length + ch'.invexlist.length : ℤ) + (ch.masks type).length =
        ch.banlist.length + ch.exceptlist.length + ch.invexlist.length +
          ((ch.masks type).eraseP fun ban => decide (IrcEq text ban.banstr)).length :=
      ch.count_setMasks type _ _
    have before := tidy.counted
    have part : ((ch.masks type).length : ℤ) ≤ ch.banlist.length + ch.exceptlist.length + ch.invexlist.length := by
      cases type <;> simp only [Channel.masks] <;> omega
    change (if ch.numMask > 0 then ch.numMask - 1 else 0) = _
    rw [if_pos (by omega)]
    omega
  · rw [lists]
    split
    · exact fun old kept => within type old (sublist.mem kept)
    · exact within type'

/-- The lists stay in order and of masks of the set, whatever the letter. -/
theorem Channel.Tidy.letter {masks : Set (List Char)} (cover : CoverEqual masks) {x : ModeContext} {dir : Dir}
    {c : Char} {r r' : ModeRun} (done : modeTable x dir c r = some r')
    (asked : (maskType c).isSome ∧ dir = .add → ∀ mask ∈ x.newMask r, mask ∈ masks)
    (tidy : r.changes.ch.Tidy) (within : r.changes.ch.MasksIn masks) :
    r'.changes.ch.Tidy ∧ r'.changes.ch.MasksIn masks := by
  cases list : maskType c with
  | none => exact ((change_modeTable x dir done).sameMasks list).tidy ⟨tidy, within⟩
  | some type =>
    obtain ⟨-, table⟩ := modeTable_mask list
    rw [table] at done
    rw [list] at asked
    obtain same | ⟨ban, adds, stored, free, whole⟩ | ⟨text, ⟨found, inside, equal⟩, whole⟩ := chmMask_channel done
    · rw [same]
      exact ⟨tidy, within⟩
    · have member : ban.banstr ∈ masks := asked ⟨rfl, adds⟩ _ stored
      rw [whole]
      exact tidy.insert cover within member free
    · rw [whole]
      exact tidy.remove within ⟨found, inside, equal⟩

/-- The run lemma over the letters of a command. -/
theorem Channel.Tidy.readLetters {masks : Set (List Char)} (cover : CoverEqual masks) {x : ModeContext}
    {letters : List Char} {dir : Dir} {r r' : ModeRun} (done : readLetters x letters dir r = some r')
    (asked : ∀ mask ∈ masksSet x letters dir r, mask ∈ masks)
    (tidy : r.changes.ch.Tidy) (within : r.changes.ch.MasksIn masks) :
    r'.changes.ch.Tidy ∧ r'.changes.ch.MasksIn masks := by
  induction letters generalizing dir r with
  | nil =>
    cases done
    exact ⟨tidy, within⟩
  | cons c letters ih =>
    rw [Chan.readLetters] at done
    rw [Chan.masksSet] at asked
    split at done
    · next sign =>
      rw [if_pos sign] at asked
      exact ih done asked tidy within
    · next sign =>
      rw [if_neg sign] at asked
      cases letter : modeTable x dir c r with
      | none =>
        rw [letter] at done
        cases done
      | some r₁ =>
        rw [letter] at done asked
        obtain ⟨tidy₁, within₁⟩ := Channel.Tidy.letter cover letter (fun adds mask new => asked mask (by
          rw [if_pos adds]
          exact List.mem_append_left _ (Option.mem_toList.mpr new))) tidy within
        exact ih done (fun mask inside => asked mask (List.mem_append_right _ inside)) tidy₁ within₁

/-- The channels of a state are in order. -/
def State.MasksTidy (masks : Set (List Char)) (s : State) : Prop :=
  ∀ chptr, (s.channel chptr).Tidy ∧ (s.channel chptr).MasksIn masks

theorem MaskStep.tidy {masks : Set (List Char)} (cover : CoverEqual masks) {s s' : State}
    (step : MaskStep masks s s') (tidy : s.MasksTidy masks) : s'.MasksTidy masks := by
  intro chptr
  cases step with
  | mode m inside done =>
    obtain ⟨changes, set_, rfl⟩ := Option.map_eq_some_iff.mp done
    by_cases here : chptr = m.chptr
    · rw [here, State.setChannel_channel]
      obtain ⟨r, read, rfl⟩ := Option.map_eq_some_iff.mp set_
      exact Channel.Tidy.readLetters cover read inside (tidy m.chptr).1 (tidy m.chptr).2
    · rw [State.setChannel_channel_ne _ _ here]
      exact tidy chptr
  | other quiet =>
    obtain same | ⟨empty, count⟩ := quiet chptr
    · exact same.tidy (tidy chptr)
    · have ban : (s'.channel chptr).banlist = [] := empty .ban
      have exception : (s'.channel chptr).exceptlist = [] := empty .exception
      have invex : (s'.channel chptr).invexlist = [] := empty .invex
      refine ⟨⟨fun type => ?_, ?_⟩, fun type => ?_⟩
      · rw [empty type]
        exact .nil
      · rw [count, ban, exception, invex]
        rfl
      · rw [empty type]
        exact fun _ none_ => absurd none_ List.not_mem_nil

/-! ### Whole runs -/

/-- A chanop behind server 0, in channels with no masks. -/
def farOp : State :=
  { smallNetwork with
    channel := fun chptr =>
      { smallNetwork.channel chptr with members := fun r => if r = .chanop then [1] else [] } }

theorem farOp_tidy (masks : Set (List Char)) : farOp.MasksTidy masks := by
  refine fun chptr => ⟨⟨fun type => ?_, rfl⟩, fun type => ?_⟩
  · cases type <;> exact .nil
  · cases type <;> exact fun _ none_ => absurd none_ List.not_mem_nil

section

variable {s : State} {clientP source : ClientId} {chptr : ChannelId}

/-- A command from another server asks to set the mask as it is. -/
theorem State.GivesModes.masksSet_remote (gives : s.GivesModes clientP source chptr)
    (remote : (s.client source).mine = false) (type : MaskType) (mask : List Char) :
    (type.command '+' clientP source chptr mask).masksSet s = [mask] := by
  have server : (s.client clientP).status = .server := by
    obtain ⟨-, mine⟩ | ⟨server, -⟩ := gives.link
    · rw [remote] at mine
      cases mine
    · exact server
  have letter : ¬(type.letter = '+' ∨ type.letter = '-' ∨ type.letter = '=') := by
    cases type <;> decide
  have list : (maskType type.letter).isSome := by
    cases type <;> rfl
  let x := (type.command '+' clientP source chptr mask).context s
  let r := (type.command '+' clientP source chptr mask).start s
  have taken : x.maskParam .add r = some mask := by
    have access : x.alev = chaccessChanop := gives.access
    have far : x.mine = false := remote
    rw [ModeContext.maskParam, if_neg]
    · rfl
    · rw [access, far]
      rintro (query | low | ⟨mine, -⟩)
      · cases query
      · exact absurd low (by decide)
      · cases mine
  have new : x.newMask r = some mask := by
    have server' : (x.s.client x.clientP).status = .server := server
    have far : x.mine = false := remote
    rw [ModeContext.newMask, taken, Option.bind_some, if_pos server', Option.map_some, far]
    rfl
  change Chan.masksSet x ['+', type.letter] .add r = [mask]
  rw [Chan.masksSet, if_pos (.inl rfl), Chan.masksSet, if_neg letter, if_pos ⟨list, rfl⟩, new]
  cases modeTable x (Dir.read .add '+') type.letter r <;> rfl

/-- Such a command puts a mask on the list that no entry covers. -/
theorem State.GivesModes.step_remote {masks : Set (List Char)} (gives : s.GivesModes clientP source chptr)
    (remote : (s.client source).mine = false) (type : MaskType) {mask : List Char} (member : mask ∈ masks)
    (below : (s.channel chptr).numMask < s.maxbans)
    (free : ∀ ban ∈ (s.channel chptr).masks type, ircMatch ban.banstr mask = false) :
    ∃ ban : Ban, ban.banstr = mask ∧ MaskStep masks s (s.setChannel chptr
      { (s.channel chptr).setMasks type (ban :: (s.channel chptr).masks type) with
        numMask := (s.channel chptr).numMask + 1 }) := by
  have new : s.newMask source mask = some mask := by simp [State.newMask, State.handedMask, remote]
  refine ⟨⟨mask, (s.client source).whoSet, s.currentTime⟩, rfl, .mode (type.command '+' clientP source chptr mask) ?_ ?_⟩
  · rw [gives.masksSet_remote remote]
    simpa using member
  · rw [gives.add below]
    · rw [new]
      rfl
    · rw [new]
      rintro new ⟨⟩
      exact free

end

/-- Every run whose masks are of a set keeps the lists of every channel in order if and only if the masks of the set that
are equal up to case match one another. -/
theorem tidy_iff (masks : Set (List Char)) :
    (∀ s s' : State, s.MasksTidy masks → Relation.ReflTransGen (MaskStep masks) s s' →
      ∀ chptr, (s'.channel chptr).Tidy) ↔ CoverEqual masks := by
  constructor
  · intro always mask inside mask' inside' equal
    by_contra differ
    rw [Bool.not_eq_true] at differ
    -- a chanop of another server sets the one and then the other
    have gives : farOp.GivesModes 0 1 0 := ⟨by decide, .inr ⟨rfl, rfl⟩⟩
    obtain ⟨ban, text, first⟩ := gives.step_remote rfl .ban inside (by decide) fun ban none_ => absurd none_ List.not_mem_nil
    have empty : (farOp.channel 0).masks .ban = [] := rfl
    rw [empty] at first
    have gives' := @State.GivesModes.setMasks farOp .ban 0 1 0 gives [ban] ((farOp.channel 0).numMask + 1)
    have below : (farOp.channel 0).numMask + 1 < farOp.maxbans := by decide
    obtain ⟨ban', text', second⟩ := gives'.step_remote rfl .ban inside' (by rwa [State.setChannel_channel])
      fun old here => by
        rw [State.setChannel_channel, Channel.masks_setMasks, List.mem_singleton] at here
        rw [here, text]
        exact differ
    have distinct := (always _ _ (farOp_tidy masks) (.tail (.single first) second) 0).distinct .ban
    rw [State.setChannel_channel, Channel.masks_setMasks, State.setChannel_channel, Channel.masks_setMasks] at distinct
    have apart := (List.pairwise_cons.mp distinct).1 ban (List.mem_singleton_self ban)
    rw [text, text'] at apart
    exact apart equal.symm
  · intro cover s s' tidy run chptr
    have kept : s'.MasksTidy masks := by
      induction run with
      | refl => exact tidy
      | tail _ step ih => exact step.tidy cover ih
    exact (kept chptr).1

/-- `MODE #a +b a\b`. -/
def banQuoted : ModeCommand := MaskType.ban.command '+' 3 3 0 ['a', '\\', 'b']

/-- The same mask is put on the list twice: a backslash in it quotes, and it does not match itself. -/
theorem set_twice : (opped.channel 0).Tidy ∧
    ∃ s₁ s₂, opped.mode banQuoted = some s₁ ∧ s₁.mode banQuoted = some s₂ ∧ ¬(s₂.channel 0).Tidy := by
  have masks : ((opped.mode banQuoted).bind fun s => s.mode banQuoted).map (fun s =>
      (s.channel 0).banlist.map Ban.banstr) =
        some ["a\\b!*@*".toList, "a\\b!*@*".toList, ['x']] := by decide +kernel
  obtain ⟨s₂, both, list⟩ := Option.map_eq_some_iff.mp masks
  obtain ⟨s₁, first, second⟩ := Option.bind_eq_some_iff.mp both
  refine ⟨⟨fun type => ?_, rfl⟩, s₁, s₂, first, second, fun tidy => ?_⟩
  · cases type with
    | ban => exact List.pairwise_singleton _ _
    | exception => exact .nil
    | invex => exact .nil
  · have distinct : ((s₂.channel 0).banlist.map Ban.banstr).Pairwise fun text other => ¬IrcEq text other :=
      List.pairwise_map.mpr (tidy.distinct .ban)
    rw [list] at distinct
    exact (List.pairwise_cons.mp distinct).1 _ List.mem_cons_self (.refl _)

end Ircd.Chan
