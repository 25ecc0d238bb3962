import Ircd.Channel.MaskTable
import Ircd.Match.Apart

/-!
# Taking a mask off again

A chanop puts a mask on a list and takes it off with the same text: when the channel is as it
was before.
-/
namespace Ircd.Chan

open Match (reading front)

/-- `MODE +b mask` or `MODE -b mask`, and the same for the other lists. -/
def MaskType.command (type : MaskType) (sign : Char) (clientP source : ClientId) (chptr : ChannelId)
    (mask : List Char) : ModeCommand :=
  ⟨clientP, source, chptr, [[sign, type.letter], mask]⟩

/-- The source is a chanop, and a client here or behind the server that the command comes from. -/
structure State.GivesModes (s : State) (clientP source : ClientId) (chptr : ChannelId) : Prop where
  chanop : (s.channel chptr).isChanOp source = true
  link : (clientP = source ∧ (s.client source).mine = true) ∨
    ((s.client clientP).status = .server ∧ (s.client source).mine = false)

/-- The mask that `add_id` is given. -/
def State.handedMask (s : State) (source : ClientId) (mask : List Char) : Option (List Char) :=
  if (s.client source).mine then prettyMask 0 mask else some mask

/-- The mask that `add_id` looks for and puts on the list. -/
def State.newMask (s : State) (source : ClientId) (mask : List Char) : Option (List Char) :=
  (s.handedMask source mask).map fun handed => if (s.client source).mine then collapse handed else handed

/-- The mask is put on the list, with one entry more in between, and the list is as before once it is taken off. -/
def State.Undoes (s : State) (type : MaskType) (clientP source : ClientId) (chptr : ChannelId)
    (mask : List Char) : Prop :=
  ∃ s₁ s₂ ban, s.mode (type.command '+' clientP source chptr mask) = some s₁ ∧
    s₁.mode (type.command '-' clientP source chptr mask) = some s₂ ∧
    (s₁.channel chptr).masks type = ban :: (s.channel chptr).masks type ∧
    (s₁.channel chptr).numMask = (s.channel chptr).numMask + 1 ∧
    (s₂.channel chptr).masks type = (s.channel chptr).masks type ∧
    (s₂.channel chptr).numMask = (s.channel chptr).numMask

/-- No star stands right behind another, where neither is quoted. -/
def NoDoubleStar (mask : List Char) : Prop := (reading mask).IsChain fun s t => ¬(s = .star ∧ t = .star)

/-! ### One command -/

@[simp] theorem Channel.masks_setMasks (ch : Channel) (type : MaskType) (list : List Ban) (n : ℤ) :
    ({ ch.setMasks type list with numMask := n } : Channel).masks type = list := by
  cases type <;> rfl

@[simp] theorem Channel.isChanOp_setMasks (ch : Channel) (type : MaskType) (list : List Ban) (n : ℤ)
    (who : ClientId) :
    ({ ch.setMasks type list with numMask := n } : Channel).isChanOp who = ch.isChanOp who := by
  cases type <;> rfl

theorem modeTable_letter (type : MaskType) (x : ModeContext) (dir : Dir) (r : ModeRun) :
    modeTable x dir type.letter r = chmMask type type.entry x dir type.letter r := by
  cases type <;> rfl

section

variable {s : State} {type : MaskType} {clientP source : ClientId} {chptr : ChannelId} {mask : List Char}

theorem State.GivesModes.access (gives : s.GivesModes clientP source chptr) :
    s.getChannelAccess source (s.channel chptr) = chaccessChanop := by
  unfold State.getChannelAccess
  rw [gives.chanop]
  split <;> rfl

/-- What the two commands do is done to the mask and to the parameter, which is cut for a client here. -/
theorem State.GivesModes.mode (gives : s.GivesModes clientP source chptr) {sign : Char} {dir : Dir}
    (read : sign = '+' ∧ dir = .add ∨ sign = '-' ∧ dir = .del) :
    s.mode (type.command sign clientP source chptr mask) =
      ((⟨s.channel chptr, [], []⟩ : Changes).mask s source type type.entry dir type.letter
        (s.handedMask source mask) (if (s.client source).mine then cutSpace mask else mask)).map
          fun changes => s.setChannel chptr changes.ch := by
  have letter : ¬(type.letter = '+' ∨ type.letter = '-' ∨ type.letter = '=') := by
    cases type <;> decide
  have signed : (sign = '+' ∨ sign = '-' ∨ sign = '=') ∧ Dir.read .add sign = dir ∧ dir ≠ .query := by
    obtain ⟨rfl, rfl⟩ | ⟨rfl, rfl⟩ := read <;> decide
  obtain ⟨isSign, signDir, notQuery⟩ := signed
  have run : s.mode (type.command sign clientP source chptr mask) =
      (chmMask type type.entry ((type.command sign clientP source chptr mask).context s) dir type.letter
        ((type.command sign clientP source chptr mask).start s)).map
          fun r => s.setChannel chptr r.changes.ch := by
    rw [State.mode, State.setChannelMode, Option.map_map]
    change Option.map _ (readLetters _ [sign, type.letter] .add _) = _
    rw [readLetters, if_pos isSign, signDir, readLetters, if_neg letter, modeTable_letter]
    cases chmMask type type.entry ((type.command sign clientP source chptr mask).context s) dir type.letter
        ((type.command sign clientP source chptr mask).start s) with
    | none => rfl
    | some r => rfl
  have access := gives.access
  have may : ¬(dir = .query ∨ ((type.command sign clientP source chptr mask).context s).alev < chaccessHalfop) := by
    rw [not_or]
    refine ⟨notQuery, ?_⟩
    change ¬s.getChannelAccess source (s.channel chptr) < chaccessHalfop
    rw [access]
    decide
  rw [run, chmMask]
  change Option.map _ (if dir = .query ∨ ((type.command sign clientP source chptr mask).context s).alev < chaccessHalfop
    then _ else _) = _
  rw [if_neg may, if_neg (by simp [ModeCommand.start])]
  obtain ⟨same, mine⟩ | ⟨server, mine⟩ := gives.link
  · have client : (s.client clientP).status ≠ .server := by
      rw [same]
      rw [Client.mine, Bool.and_eq_true, beq_iff_eq] at mine
      rw [mine.2]
      decide
    change Option.map _ (if (s.client clientP).status = .server then _ else _) = _
    rw [if_neg client, State.handedMask, if_pos mine, if_pos mine]
    dsimp only
    rw [Option.map_map]
    rfl
  · change Option.map _ (if (s.client clientP).status = .server then _ else _) = _
    rw [if_pos server, State.handedMask, mine, Option.map_map]
    rfl

/-- A mask that nothing on the list covers is put in front. -/
theorem State.GivesModes.add (gives : s.GivesModes clientP source chptr)
    (below : (s.channel chptr).numMask < s.maxbans)
    (uncovered : ∀ new ∈ s.newMask source mask, ∀ ban ∈ (s.channel chptr).masks type, ircMatch ban.banstr new = false) :
    s.mode (type.command '+' clientP source chptr mask) =
      (s.newMask source mask).map fun new => s.setChannel chptr
        { (s.channel chptr).setMasks type
            (⟨new, (s.client source).whoSet, s.currentTime⟩ :: (s.channel chptr).masks type) with
          numMask := (s.channel chptr).numMask + 1 } := by
  have room : ¬((s.client source).status ≠ .server ∧ (s.channel chptr).numMask ≥ s.maxbans ∧
      (s.client source).mine = true) := by
    rintro ⟨-, full, -⟩
    omega
  rw [gives.mode (.inl ⟨rfl, rfl⟩), Changes.mask]
  unfold State.addId
  dsimp only
  rw [if_neg room]
  unfold State.newMask at uncovered ⊢
  cases handed : s.handedMask source mask with
  | none => rfl
  | some handed_ =>
    rw [handed] at uncovered
    have free : ¬((s.channel chptr).masks type).any (fun ban =>
        ircMatch ban.banstr (if (s.client source).mine then collapse handed_ else handed_)) = true := by
      rw [Bool.not_eq_true, List.any_eq_false]
      intro ban inside
      rw [uncovered _ rfl ban inside]
      decide
    dsimp only
    rw [if_neg free]
    simp only [Option.map_some, Changes.record_ch]

/-- The state behind the first command lets the same chanop give the second. -/
theorem State.GivesModes.setMasks (gives : s.GivesModes clientP source chptr) (list : List Ban) (n : ℤ) :
    (s.setChannel chptr { (s.channel chptr).setMasks type list with numMask := n }).GivesModes clientP source chptr := by
  refine ⟨?_, gives.link⟩
  rw [State.setChannel_channel, Channel.isChanOp_setMasks]
  exact gives.chanop

end

/-! ### Which entry is taken off -/

/-- The entry in front is the one that is found. -/
theorem Channel.delId_front (ch : Channel) {type : MaskType} {list : List Ban} {n : ℤ} {ban : Ban} {mask : List Char}
    (equal : IrcEq mask ban.banstr) (counted : 0 ≤ n) :
    ∃ ch', ({ ch.setMasks type (ban :: list) with numMask := n + 1 } : Channel).delId (some mask) type = some ch' ∧
      ch'.masks type = list ∧ ch'.numMask = n := by
  have found : (ban :: list).any (fun ban => decide (IrcEq mask ban.banstr)) = true := by simp [equal]
  have taken : (ban :: list).eraseP (fun ban => decide (IrcEq mask ban.banstr)) = list := by simp [equal]
  rw [Channel.delId]
  dsimp only
  rw [Channel.masks_setMasks, if_pos found, taken]
  refine ⟨_, rfl, Channel.masks_setMasks _ _ _ _, ?_⟩
  dsimp only
  rw [if_pos (by omega)]
  omega

/-- A text that is not that of the entry in front takes something else off, or nothing. -/
theorem eraseP_ne {list : List Ban} {ban : Ban} {mask : List Char} (other : ¬IrcEq mask ban.banstr) :
    (ban :: list).eraseP (fun ban => decide (IrcEq mask ban.banstr)) ≠ list := by
  intro same
  rw [List.eraseP_cons_of_neg (by simpa using other)] at same
  have count := congrArg (List.countP fun entry => decide (IrcEq entry.banstr ban.banstr)) same
  rw [List.countP_cons_of_pos (by simp [IrcEq.refl])] at count
  by_cases found : ∃ entry ∈ list, decide (IrcEq mask entry.banstr) = true
  · obtain ⟨entry, inside, equal⟩ := found
    obtain ⟨gone, before, behind, -, here, whole, left⟩ :=
      List.exists_of_eraseP (p := fun entry => decide (IrcEq mask entry.banstr)) inside equal
    have differ : decide (IrcEq gone.banstr ban.banstr) = false := by
      rw [decide_eq_false_iff_not]
      exact fun entryEqual => other ((of_decide_eq_true here).trans entryEqual)
    rw [left, whole, List.countP_append, List.countP_append, List.countP_cons, differ] at count
    simp at count
  · have untouched : list.eraseP (fun entry => decide (IrcEq mask entry.banstr)) = list :=
      List.eraseP_of_forall_not fun entry inside equal => found ⟨entry, inside, equal⟩
    rw [untouched] at count
    omega

/-! ### Masks that are no longer as they were -/

theorem collapse_of_length {mask : List Char} (long : mask.length ≤ (collapse mask).length) : collapse mask = mask :=
  (collapse_sublist mask).eq_of_length_le long

/-- A mask is as long as its collapsed form only where there is nothing to collapse. -/
theorem collapse_of_ircEq {mask : List Char} (equal : IrcEq mask (collapse mask)) : collapse mask = mask :=
  collapse_of_length equal.length_eq.le

/-- A text that has an `@` with a `!` in front. -/
def Complete (mask : List Char) : Prop := ∃ front back, mask = front ++ '@' :: back ∧ '@' ∉ front ∧ '!' ∈ front

theorem Complete.of_ircEq {mask mask' : List Char} (complete : Complete mask') (equal : IrcEq mask mask') :
    Complete mask := by
  obtain ⟨front, back, rfl, first, mark⟩ := complete
  have whole : mask.map toUpper = front.map toUpper ++ toUpper '@' :: back.map toUpper := by
    have equal' : mask.map toUpper = (front ++ '@' :: back).map toUpper := equal
    rw [equal', List.map_append, List.map_cons]
  obtain ⟨x, rest, rfl, frontSame, restSame⟩ := List.map_eq_append_iff.mp whole
  obtain ⟨d, y, rfl, separator, -⟩ := List.map_eq_cons_iff.mp restSame
  obtain rfl : d = '@' := eq_of_toUpper separator (by decide)
  refine ⟨x, y, rfl, fun inside => first ?_, ?_⟩
  · have upper : '@' ∈ front.map toUpper := by
      rw [← frontSame]
      exact List.mem_map.mpr ⟨'@', inside, by decide⟩
    obtain ⟨c, member, same⟩ := List.mem_map.mp upper
    rwa [eq_of_toUpper same (by decide)] at member
  · have upper : '!' ∈ x.map toUpper := by
      rw [frontSame]
      exact List.mem_map.mpr ⟨'!', mark, by decide⟩
    obtain ⟨c, member, same⟩ := List.mem_map.mp upper
    rwa [eq_of_toUpper same (by decide)] at member

/-- Only stars are left out in front of the `@`. -/
theorem collapseLoop_append (star quote : Bool) (x y : List Char) :
    ∃ x' y', collapseLoop star quote (x ++ '@' :: y) = x' ++ '@' :: y' ∧ ('@' ∈ x' → '@' ∈ x) ∧
      ('!' ∈ x → '!' ∈ x') := by
  induction x generalizing star quote with
  | nil => exact ⟨[], collapseLoop false false y, by simp [collapseLoop], by simp, by simp⟩
  | cons c x ih =>
    rw [List.cons_append]
    unfold collapseLoop
    split_ifs with free repeated escape
    · obtain ⟨-, rfl⟩ : _ ∧ c = '*' := by simpa using free
      obtain ⟨x', y', same, at_, ex⟩ := ih true quote
      exact ⟨x', y', by rw [same, List.nil_append], fun inside => by simp [at_ inside],
        fun inside => ex (by simpa using inside)⟩
    · obtain ⟨-, rfl⟩ : _ ∧ c = '*' := by simpa using free
      obtain ⟨x', y', same, at_, ex⟩ := ih true quote
      exact ⟨'*' :: x', y', by rw [same]; rfl, fun inside => by simp [at_ (by simpa using inside)],
        fun inside => by simp [ex (by simpa using inside)]⟩
    · obtain ⟨-, rfl⟩ : _ ∧ c = '\\' := by simpa using escape
      obtain ⟨x', y', same, at_, ex⟩ := ih star true
      exact ⟨'\\' :: x', y', by rw [same, List.cons_append], fun inside => by simp [at_ (by simpa using inside)],
        fun inside => by simp [ex (by simpa using inside)]⟩
    · obtain ⟨x', y', same, at_, ex⟩ := ih false false
      refine ⟨c :: x', y', by rw [same, List.cons_append], fun inside => ?_, fun inside => ?_⟩
      · exact List.mem_cons.mpr ((List.mem_cons.mp inside).imp_right at_)
      · exact List.mem_cons.mpr ((List.mem_cons.mp inside).imp_right ex)

theorem Complete.collapse {mask : List Char} (complete : Complete mask) : Complete (collapse mask) := by
  obtain ⟨front, back, rfl, first, mark⟩ := complete
  obtain ⟨front', back', same, at_, ex⟩ := collapseLoop_append false false front back
  exact ⟨front', back', same, fun inside => first (at_ inside), ex mark⟩

/-- A complete mask gets no longer. -/
theorem Complete.length_pretty {text mask : List Char} (complete : Complete (checkString text))
    (pretty : prettyMask 0 text = some mask) : mask.length ≤ (checkString text).length := by
  obtain ⟨front, back, whole, first, mark⟩ := complete
  obtain ⟨nick, user, cutFront, parts, -⟩ := exists_cut mark
  have split_ : splitMask (checkString text) = (nick, user, back) := by
    rw [splitMask_eq, whole, if_pos (by simp), cutAt_eq first, if_pos mark, cutFront]
  rw [prettyMask_eq, split_] at pretty
  split_ifs at pretty
  rw [← Option.some.inj pretty, whole, parts]
  have shorterNick := List.length_take_le' nickLen nick
  have shorterUser := List.length_take_le' userLen user
  have shorterHost := List.length_take_le' hostLen back
  simp only [List.length_append, List.length_cons, List.length_nil]
  omega

theorem complete_pretty {text mask : List Char} (pretty : prettyMask 0 text = some mask) : Complete mask := by
  obtain ⟨noAt, -, noAt'⟩ := splitMask_clean (checkString text)
  rw [prettyMask_eq] at pretty
  split_ifs at pretty
  rw [← Option.some.inj pretty]
  refine ⟨_, _, List.append_assoc _ ['@'] _, ?_, by simp⟩
  simp only [List.mem_append, List.mem_singleton, not_or]
  exact ⟨⟨fun inside => noAt (List.mem_of_mem_take inside), by decide⟩,
    fun inside => noAt' (List.mem_of_mem_take inside)⟩

/-- The parameter itself is the collapsed mask only where the mask was collapsed already. -/
theorem collapse_of_raw {text mask : List Char} (pretty : prettyMask 0 text = some mask)
    (equal : IrcEq (cutSpace text) (collapse mask)) : collapse mask = mask := by
  have complete := (complete_pretty pretty).collapse.of_ircEq equal
  have some_ : text ≠ [] := by
    rintro rfl
    obtain ⟨front, back, whole, -, -⟩ := complete
    simp [cutSpace] at whole
  have checked : checkString text = cutSpace text := if_neg some_
  rw [← checked] at complete equal
  have shorter := complete.length_pretty pretty
  exact collapse_of_length (by rw [← equal.length_eq]; exact shorter)

/-- `collapse` leaves the masks as they are that have no double star. -/
theorem collapse_eq_iff (mask : List Char) : collapse mask = mask ↔ NoDoubleStar mask := by
  constructor
  · intro same
    have apart := Match.starsApart_collapse mask
    rwa [same] at apart
  · intro apart
    unfold NoDoubleStar at apart
    induction mask using Match.mask_induction with
    | nil => rfl
    | lone => rfl
    | quoted c m ih =>
      rw [Match.collapse_quoted, ih apart.tail]
    | star m ih =>
      rw [Match.reading_cons (by decide)] at apart
      have plain : front m ≠ '*' := by
        intro star
        obtain ⟨rest, rfl⟩ := Match.eq_cons_of_front star (by decide)
        rw [Match.reading_cons (by decide)] at apart
        exact (List.isChain_cons_cons.mp apart).1 ⟨rfl, rfl⟩
      rw [Match.collapse_star, Match.dropStars_of_front plain, ih apart.tail]
    | char c m backslash star ih =>
      rw [Match.reading_cons backslash] at apart
      rw [Match.collapse_char backslash star, ih apart.tail]

/-! ### There and back -/

section

variable {s : State} {type : MaskType} {clientP source : ClientId} {chptr : ChannelId} {mask : List Char}

/-- The second command, behind the first. -/
theorem State.GivesModes.remove (gives : s.GivesModes clientP source chptr) (type : MaskType) (list : List Ban)
    {n : ℤ} (ban : Ban) {handed : List Char} (given_ : s.handedMask source mask = some handed) (counted : 0 ≤ n) :
    let ch := { (s.channel chptr).setMasks type (ban :: list) with numMask := n + 1 }
    ∃ s₂, (s.setChannel chptr ch).mode (type.command '-' clientP source chptr mask) = some s₂ ∧
      (IrcEq handed ban.banstr → (s₂.channel chptr).masks type = list ∧ (s₂.channel chptr).numMask = n) ∧
      (¬IrcEq handed ban.banstr →
        ¬IrcEq (if (s.client source).mine then cutSpace mask else mask) ban.banstr →
          (s₂.channel chptr).masks type ≠ list) := by
  intro ch
  have second : (s.setChannel chptr ch).GivesModes clientP source chptr := gives.setMasks _ _
  have masks : ch.masks type = ban :: list := Channel.masks_setMasks _ _ _ _
  have handed' : (s.setChannel chptr ch).handedMask source mask = some handed := given_
  rw [second.mode (.inr ⟨rfl, rfl⟩), handed', State.setChannel_channel, State.setChannel_client]
  generalize (if (s.client source).mine then cutSpace mask else mask) = raw
  -- a text that is not the new entry's takes off something else
  have other : ∀ {text : List Char} {ch' : Channel}, ¬IrcEq text ban.banstr →
      ch.delId (some text) type = some ch' → ch'.masks type ≠ list := by
    intro text ch' differ deleted
    obtain ⟨text', n', same, -, rfl⟩ := Channel.delId_some deleted
    obtain rfl := Option.some.inj same
    rw [Channel.masks_setMasks, masks]
    exact eraseP_ne differ
  rw [Changes.mask]
  dsimp only
  by_cases equal : IrcEq handed ban.banstr
  · obtain ⟨ch', deleted, left, count⟩ := Channel.delId_front (s.channel chptr) equal counted
    rw [deleted]
    refine ⟨_, rfl, fun _ => ?_, fun differ => absurd equal differ⟩
    rw [State.setChannel_channel, Changes.record_ch]
    exact ⟨left, count⟩
  · cases first : ch.delId (some handed) type with
    | some ch' =>
      refine ⟨_, rfl, fun same => absurd same equal, fun _ _ => ?_⟩
      rw [State.setChannel_channel, Changes.record_ch]
      exact other equal first
    | none =>
      cases second : ch.delId (some raw) type with
      | some ch' =>
        refine ⟨_, rfl, fun same => absurd same equal, fun _ rawDiffers => ?_⟩
        rw [State.setChannel_channel, Changes.record_ch]
        exact other rawDiffers second
      | none =>
        refine ⟨_, rfl, fun same => absurd same equal, fun _ _ => ?_⟩
        rw [State.setChannel_channel, masks]
        exact List.cons_ne_self ban list

/-- A mask that a chanop puts on a list comes off again with the same text, and leaves the list as it was, if and only
if the chanop is behind another server, or the mask that `pretty_mask` makes of the text has no double star. -/
theorem undoes_iff (gives : s.GivesModes clientP source chptr) (below : (s.channel chptr).numMask < s.maxbans)
    (counted : 0 ≤ (s.channel chptr).numMask)
    (uncovered : ∀ new ∈ s.newMask source mask, ∀ ban ∈ (s.channel chptr).masks type, ircMatch ban.banstr new = false) :
    s.Undoes type clientP source chptr mask ↔
      ((s.client source).mine = true → ∃ pretty, prettyMask 0 mask = some pretty ∧ NoDoubleStar pretty) := by
  have added := gives.add below uncovered
  cases handed : s.handedMask source mask with
  | none =>
    have none_ : s.newMask source mask = none := by rw [State.newMask, handed]; rfl
    rw [none_] at added
    constructor
    · rintro ⟨s₁, s₂, ban, first, -⟩
      rw [added] at first
      cases first
    · intro kept
      rw [State.handedMask] at handed
      split_ifs at handed with mine
      obtain ⟨pretty, some_, -⟩ := kept mine
      rw [handed] at some_
      cases some_
  | some handed_ =>
    obtain ⟨new, new_⟩ : ∃ new, s.newMask source mask = some new := by rw [State.newMask, handed]; exact ⟨_, rfl⟩
    rw [new_] at added
    have ban : ∃ ban : Ban, ban = ⟨new, (s.client source).whoSet, s.currentTime⟩ := ⟨_, rfl⟩
    obtain ⟨ban, entry⟩ := ban
    have banstr : ban.banstr = new := by rw [entry]
    rw [Option.map_some, ← entry] at added
    obtain ⟨s₂, second, restored, differs⟩ := gives.remove type ((s.channel chptr).masks type) ban handed counted
    -- the two masks are the same where nothing is collapsed
    have same : IrcEq handed_ ban.banstr ↔
        ((s.client source).mine = true → ∃ pretty, prettyMask 0 mask = some pretty ∧ NoDoubleStar pretty) := by
      rw [banstr]
      rw [State.newMask, handed, Option.map_some, Option.some.injEq] at new_
      rw [State.handedMask] at handed
      split_ifs at handed new_ with mine
      · rw [← new_]
        constructor
        · exact fun equal _ => ⟨handed_, handed, (collapse_eq_iff _).mp (collapse_of_ircEq equal)⟩
        · intro kept
          obtain ⟨pretty, some_, apart⟩ := kept mine
          rw [handed] at some_
          obtain rfl := Option.some.inj some_
          rw [(collapse_eq_iff _).mpr apart]
          exact .refl _
      · rw [new_]
        exact ⟨fun _ local_ => absurd local_ mine, fun _ => .refl _⟩
    constructor
    · rintro ⟨s₁', s₂', ban', first', second', -, -, left, -⟩
      rw [added] at first'
      obtain rfl := Option.some.inj first'
      rw [second] at second'
      obtain rfl := Option.some.inj second'
      rw [← same]
      by_contra differ
      refine differs differ (fun raw => differ ?_) left
      rw [banstr] at raw ⊢
      rw [State.newMask, handed, Option.map_some, Option.some.injEq] at new_
      rw [State.handedMask] at handed
      split_ifs at handed new_ raw with mine
      · rw [← new_] at raw ⊢
        rw [collapse_of_raw handed raw]
        exact .refl _
      · rw [new_]
        exact .refl _
    · intro kept
      obtain ⟨left, count⟩ := restored (same.mpr kept)
      refine ⟨_, s₂, ban, added, second, ?_, ?_, left, count⟩
      · rw [State.setChannel_channel, Channel.masks_setMasks]
      · rw [State.setChannel_channel]

end

theorem opped_gives : opped.GivesModes 3 3 0 := ⟨by decide, .inl ⟨rfl, by decide⟩⟩

/-- `MODE #a +b a` and `MODE #a -b a`. -/
theorem undoes_plain : opped.Undoes .ban 3 3 0 ['a'] ↔
    ((opped.client 3).mine = true → ∃ pretty, prettyMask 0 ['a'] = some pretty ∧ NoDoubleStar pretty) :=
  undoes_iff opped_gives (by decide) (by decide) (by decide +kernel)

/-- `MODE #a +b a**` sets `a*!*@*`, and `MODE #a -b a**` looks for `a**!*@*`. -/
theorem stars_stay : opped.GivesModes 3 3 0 ∧ (opped.channel 0).numMask < opped.maxbans ∧
    (∀ new ∈ opped.newMask 3 ['a', '*', '*'], ∀ ban ∈ (opped.channel 0).masks .ban,
      ircMatch ban.banstr new = false) ∧ ¬opped.Undoes .ban 3 3 0 ['a', '*', '*'] := by
  refine ⟨opped_gives, by decide, by decide +kernel, ?_⟩
  rintro ⟨s₁, s₂, ban, first, second, -, -, left, -⟩
  have result : ((opped.mode (MaskType.ban.command '+' 3 3 0 ['a', '*', '*'])).bind fun s₁ =>
      (s₁.mode (MaskType.ban.command '-' 3 3 0 ['a', '*', '*'])).map fun s₂ => ((s₂.channel 0).masks .ban).length) =
        some 2 := by decide +kernel
  rw [first, Option.bind_some, second, Option.map_some, left] at result
  exact absurd result (by decide)

end Ircd.Chan
