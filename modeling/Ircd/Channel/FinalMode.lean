import Ircd.Channel.BurstLines
import Ircd.Channel.Mode
import Ircd.Wire.Grammar

/-!
# The modes that a SJOIN changes

`set_final_mode` of `modules/core/m_sjoin.c`: the difference between the modes of a channel before a SJOIN and after
it, as letters and parameters for the members. The parameters are written one after another with a blank behind each,
and a reader finds them again where the blanks are.
-/
namespace Ircd.Chan

/-- The letters of the simple modes, in the order of `flags`. -/
def finalFlags : List (SimpleMode × Char) :=
  [(.noPrivMsgs, 'n'), (.topicLimit, 't'), (.secret, 's'), (.moderated, 'm'), (.inviteOnly, 'i'), (.paranoid, 'p'),
    (.hideOps, 'a')]

/-- The sign that has been written last, and the buffers. -/
structure FinalMode where
  what : Dir
  mbuf : List Char
  parabuf : List Char
  pargs : ℕ
deriving DecidableEq

def signChar (dir : Dir) : Char := if dir = .del then '-' else '+'

namespace FinalMode

/-- A letter, behind its sign if the last sign was another. -/
def put (f : FinalMode) (dir : Dir) (letter : Char) : FinalMode :=
  { f with what := dir, mbuf := f.mbuf ++ if f.what = dir then [letter] else [signChar dir, letter] }

/-- A parameter, with a blank behind it. -/
def arg (f : FinalMode) (text : List Char) : FinalMode :=
  { f with parabuf := f.parabuf ++ text ++ [' '], pargs := f.pargs + 1 }

end FinalMode

/-- `set_final_mode`. -/
def setFinalMode (mode oldmode : Mode) : FinalMode :=
  let f : FinalMode := ⟨.query, [], [], 0⟩
  let f := finalFlags.foldl
    (fun f flag => if flag.1 ∈ mode.mode ∧ flag.1 ∉ oldmode.mode then f.put .add flag.2 else f) f
  let f := finalFlags.foldl
    (fun f flag => if flag.1 ∈ oldmode.mode ∧ flag.1 ∉ mode.mode then f.put .del flag.2 else f) f
  let f := if oldmode.limit ≠ 0 ∧ mode.limit = 0 then f.put .del 'l' else f
  let f := if oldmode.key ≠ [] ∧ mode.key = [] then (f.put .del 'k').arg oldmode.key else f
  let f := if mode.limit ≠ 0 ∧ oldmode.limit ≠ mode.limit then (f.put .add 'l').arg (printD mode.limit) else f
  if mode.key ≠ [] ∧ oldmode.key ≠ mode.key then (f.put .add 'k').arg mode.key else f

/-! ### Reading -/

/-- What a reader knows of the modes of a channel. -/
structure ShownModes where
  mode : Finset SimpleMode
  limit : ℤ
  key : List Char
deriving DecidableEq

def Mode.shown (mode : Mode) : ShownModes := ⟨mode.mode, mode.limit, mode.key⟩

/-- The letters with their signs. A reader begins with additions. -/
def signedLetters : Dir → List Char → List (Dir × Char)
  | _, [] => []
  | dir, c :: letters =>
    if c = '+' ∨ c = '-' ∨ c = '=' then signedLetters (dir.read c) letters
    else (dir, c) :: signedLetters dir letters

/-- A number and nothing else. -/
def readNumber (text : List Char) : Option ℤ := if printD (atoi text) = text then some (atoi text) else none

/-- A letter takes effect. `+k`, `-k` and `+l` have a parameter each. -/
def readLetter (letter : Dir × Char) (params : List (List Char)) (shown : ShownModes) :
    Option (List (List Char) × ShownModes) :=
  if letter.2 = 'k' then
    match params with
    | [] => none
    | param :: params => some (params, { shown with key := if letter.1 = .del then [] else param })
  else if letter.2 = 'l' then
    if letter.1 = .del then some (params, { shown with limit := 0 })
    else
      match params with
      | [] => none
      | param :: params => (readNumber param).map fun limit => (params, { shown with limit := limit })
  else
    (simpleOfLetter letter.2).map fun flag =>
      (params, { shown with mode := if letter.1 = .del then shown.mode.erase flag else insert flag shown.mode })

/-- The letters take effect one after another. No parameter must be left over. -/
def applyLetters : List (Dir × Char) → List (List Char) → ShownModes → Option ShownModes
  | [], params, shown => if params = [] then some shown else none
  | letter :: letters, params, shown =>
    (readLetter letter params shown).bind fun after => applyLetters letters after.1 after.2

/-- The parameters that a text spells, however many they are. -/
def spelledParams (text : List Char) : List (List Char) := spelled text.length text

/-- What has been written leads from the old modes to the new ones. -/
def Replays (mode oldmode : Mode) : Prop :=
  applyLetters (signedLetters .add (setFinalMode mode oldmode).mbuf)
    (spelledParams (setFinalMode mode oldmode).parabuf) oldmode.shown = some mode.shown

/-- The change that a letter tells has to be told. -/
def LetterNeeded (mode oldmode : Mode) (letter : Dir × Char) : Prop :=
  if letter.2 = 'k' then
    oldmode.key ≠ mode.key ∧ if letter.1 = .del then mode.key = [] else mode.key ≠ []
  else if letter.2 = 'l' then
    oldmode.limit ≠ mode.limit ∧ if letter.1 = .del then mode.limit = 0 else mode.limit ≠ 0
  else
    ∃ flag, simpleOfLetter letter.2 = some flag ∧
      if letter.1 = .del then flag ∈ oldmode.mode ∧ flag ∉ mode.mode else flag ∈ mode.mode ∧ flag ∉ oldmode.mode

/-- A sign stands in front of some letters, and the next sign is another. -/
def SignsAlternate (letters : List Char) : Prop :=
  ∃ groups : List (Dir × List Char),
    letters = groups.flatMap (fun group => signChar group.1 :: group.2) ∧
      (∀ group ∈ groups, group.1 ≠ .query ∧ group.2 ≠ [] ∧ ∀ c ∈ group.2, c ≠ '+' ∧ c ≠ '-' ∧ c ≠ '=') ∧
      (groups.map Prod.fst).IsChain (· ≠ ·)

/-- What the letters and parameters must do. -/
structure FinalModeRight (mode oldmode : Mode) : Prop where
  replays : Replays mode oldmode
  needed : ∀ letter ∈ signedLetters .add (setFinalMode mode oldmode).mbuf, LetterNeeded mode oldmode letter
  once : (signedLetters .add (setFinalMode mode oldmode).mbuf).Nodup
  signs : SignsAlternate (setFinalMode mode oldmode).mbuf

/-- A key that is set is one parameter. A key that is taken away spells one parameter, and if a limit follows, not one
with a colon, which would be the rest of the line. -/
def KeysRead (mode oldmode : Mode) : Prop :=
  (mode.key ≠ [] ∧ oldmode.key ≠ mode.key → IsParam mode.key) ∧
    (oldmode.key ≠ [] ∧ mode.key = [] → (spelledParams (oldmode.key ++ [' '])).length = 1 ∧
      (mode.limit ≠ 0 ∧ oldmode.limit ≠ mode.limit → (skipSpaces oldmode.key).head? ≠ some ':'))

/-! ### The changes -/

/-- A change, with its parameter if it has one. -/
structure FinalChange where
  dir : Dir
  letter : Char
  param : Option (List Char)

def FinalMode.write (f : FinalMode) (change : FinalChange) : FinalMode :=
  match change.param with
  | none => f.put change.dir change.letter
  | some text => (f.put change.dir change.letter).arg text

/-- The changes of the simple modes. -/
def simpleChanges (mode oldmode : Mode) : List FinalChange :=
  ((finalFlags.filter fun flag => flag.1 ∈ mode.mode ∧ flag.1 ∉ oldmode.mode).map fun flag =>
      ⟨.add, flag.2, none⟩) ++
    (finalFlags.filter fun flag => flag.1 ∈ oldmode.mode ∧ flag.1 ∉ mode.mode).map fun flag => ⟨.del, flag.2, none⟩

/-- The changes of the limit and the key. -/
def paramChanges (mode oldmode : Mode) : List FinalChange :=
  (if oldmode.limit ≠ 0 ∧ mode.limit = 0 then [⟨.del, 'l', none⟩] else []) ++
    ((if oldmode.key ≠ [] ∧ mode.key = [] then [⟨.del, 'k', some oldmode.key⟩] else []) ++
      ((if mode.limit ≠ 0 ∧ oldmode.limit ≠ mode.limit then [⟨.add, 'l', some (printD mode.limit)⟩] else []) ++
        if mode.key ≠ [] ∧ oldmode.key ≠ mode.key then [⟨.add, 'k', some mode.key⟩] else []))

def finalChanges (mode oldmode : Mode) : List FinalChange := simpleChanges mode oldmode ++ paramChanges mode oldmode

/-- What the letters of some changes look like behind a sign. -/
def letterText : Dir → List FinalChange → List Char
  | _, [] => []
  | what, change :: changes =>
    (if what = change.dir then [change.letter] else [signChar change.dir, change.letter]) ++
      letterText change.dir changes

/-- The parameters of some changes. -/
def changeParams (changes : List FinalChange) : List (List Char) := changes.filterMap FinalChange.param

section

variable {mode oldmode : Mode} {changes : List FinalChange} {what dir : Dir}

theorem foldl_write_ite (p : Prop) [Decidable p] (change : FinalChange) (f : FinalMode) :
    (if p then [change] else []).foldl FinalMode.write f = if p then f.write change else f := by
  split <;> rfl

theorem setFinalMode_eq (mode oldmode : Mode) :
    setFinalMode mode oldmode = (finalChanges mode oldmode).foldl FinalMode.write ⟨.query, [], [], 0⟩ := by
  simp only [finalChanges, simpleChanges, paramChanges, List.foldl_append, List.foldl_map, List.foldl_filter,
    decide_eq_true_eq, foldl_write_ite]
  rfl

theorem foldl_write (changes : List FinalChange) (f : FinalMode) :
    (changes.foldl FinalMode.write f).mbuf = f.mbuf ++ letterText f.what changes ∧
      (changes.foldl FinalMode.write f).parabuf =
        f.parabuf ++ (changeParams changes).flatMap fun param => param ++ [' '] := by
  induction changes generalizing f with
  | nil => simp [letterText, changeParams]
  | cons change changes ih =>
    obtain ⟨letters, params⟩ := ih (f.write change)
    rw [List.foldl_cons, letters, params]
    cases here : change.param with
    | none =>
      simp only [FinalMode.write, here, FinalMode.put, letterText, changeParams]
      rw [List.filterMap_cons_none here, List.append_assoc]
      exact ⟨rfl, rfl⟩
    | some text =>
      simp only [FinalMode.write, here, FinalMode.put, FinalMode.arg, letterText, changeParams]
      rw [List.filterMap_cons_some here, List.append_assoc, List.flatMap_cons]
      simp only [List.append_assoc, and_self]

/-- A change has a sign, and its letter is none. -/
def FinalChange.Plain (change : FinalChange) : Prop :=
  change.dir ≠ .query ∧ change.letter ≠ '+' ∧ change.letter ≠ '-' ∧ change.letter ≠ '='

theorem signedLetters_letterText (plain : ∀ change ∈ changes, change.Plain) (same : what ≠ .query → dir = what) :
    signedLetters dir (letterText what changes) = changes.map fun change => (change.dir, change.letter) := by
  induction changes generalizing what dir with
  | nil => rfl
  | cons change changes ih =>
    obtain ⟨⟨signed, noPlus, noMinus, noEqual⟩, rest⟩ := List.forall_mem_cons.mp plain
    have later : signedLetters change.dir (letterText change.dir changes) =
        changes.map fun change => (change.dir, change.letter) := ih rest fun _ => rfl
    have letter : ∀ more, signedLetters change.dir (change.letter :: more) =
        (change.dir, change.letter) :: signedLetters change.dir more := by
      intro more
      rw [signedLetters, if_neg (by simp [noPlus, noMinus, noEqual])]
    rw [letterText, List.map_cons, ← later, ← letter]
    split
    · next here =>
      have dir_eq : dir = change.dir := (same (here ▸ signed)).trans here
      rw [dir_eq]
      rfl
    · have sign : dir.read (signChar change.dir) = change.dir ∧ (signChar change.dir = '+' ∨
          signChar change.dir = '-' ∨ signChar change.dir = '=') := by
        cases shape : change.dir with
        | query => exact absurd shape signed
        | add => exact ⟨rfl, .inl rfl⟩
        | del => exact ⟨rfl, .inr (.inl rfl)⟩
      rw [List.cons_append, signedLetters, if_pos sign.2, sign.1]
      rfl

/-- Letters that go on behind a sign, and then groups with signs that change. -/
theorem letterText_groups (plain : ∀ change ∈ changes, change.Plain) (what : Dir) :
    ∃ (run : List Char) (groups : List (Dir × List Char)),
      letterText what changes = run ++ groups.flatMap (fun group => signChar group.1 :: group.2) ∧
        (what = .query → run = []) ∧ (∀ c ∈ run, c ≠ '+' ∧ c ≠ '-' ∧ c ≠ '=') ∧
        (∀ group ∈ groups, group.1 ≠ .query ∧ group.2 ≠ [] ∧ ∀ c ∈ group.2, c ≠ '+' ∧ c ≠ '-' ∧ c ≠ '=') ∧
        (what :: groups.map Prod.fst).IsChain (· ≠ ·) := by
  induction changes generalizing what with
  | nil => exact ⟨[], [], by simp [letterText]⟩
  | cons change changes ih =>
    obtain ⟨⟨signed, letter⟩, rest⟩ := List.forall_mem_cons.mp plain
    obtain ⟨run, groups, text, -, noSign, good, chain⟩ := ih rest change.dir
    have noSign' : ∀ c ∈ change.letter :: run, c ≠ '+' ∧ c ≠ '-' ∧ c ≠ '=' := List.forall_mem_cons.mpr ⟨letter, noSign⟩
    rw [letterText, text]
    split
    · next here =>
      subst here
      exact ⟨change.letter :: run, groups, rfl, fun query => absurd query signed, noSign', good, chain⟩
    · next other =>
      refine ⟨[], (change.dir, change.letter :: run) :: groups, by simp, fun _ => rfl, by simp, ?_, ?_⟩
      · exact List.forall_mem_cons.mpr ⟨⟨signed, List.cons_ne_nil _ _, noSign'⟩, good⟩
      · exact List.IsChain.cons_cons other chain

theorem signsAlternate_letterText (plain : ∀ change ∈ changes, change.Plain) :
    SignsAlternate (letterText .query changes) := by
  obtain ⟨run, groups, text, none, -, good, chain⟩ := letterText_groups plain .query
  rw [none rfl, List.nil_append] at text
  exact ⟨groups, text, good, chain.tail⟩

/-! ### The letters -/

/-- All letters that there may be, in their order. -/
def possibleLetters : List (Dir × Char) :=
  finalFlags.map (fun flag => (.add, flag.2)) ++ finalFlags.map (fun flag => (.del, flag.2)) ++
    [(.del, 'l'), (.del, 'k'), (.add, 'l'), (.add, 'k')]

theorem sublist_ite {α β : Type} (f : α → β) (p : Prop) [Decidable p] (a : α) :
    ((if p then [a] else []).map f).Sublist [f a] := by
  split
  · exact List.Sublist.refl _
  · exact List.nil_sublist _

theorem finalChanges_sublist (mode oldmode : Mode) :
    ((finalChanges mode oldmode).map fun change => (change.dir, change.letter)).Sublist possibleLetters := by
  rw [finalChanges, List.map_append]
  apply List.Sublist.append
  · rw [simpleChanges, List.map_append, List.map_map, List.map_map]
    exact (List.filter_sublist.map _).append (List.filter_sublist.map _)
  · simp only [paramChanges, List.map_append]
    exact (sublist_ite _ _ _).append ((sublist_ite _ _ _).append ((sublist_ite _ _ _).append (sublist_ite _ _ _)))

theorem finalChanges_nodup (mode oldmode : Mode) :
    ((finalChanges mode oldmode).map fun change => (change.dir, change.letter)).Nodup :=
  (finalChanges_sublist mode oldmode).nodup (by decide)

theorem finalChanges_plain (mode oldmode : Mode) : ∀ change ∈ finalChanges mode oldmode, change.Plain := by
  have all : ∀ letter ∈ possibleLetters, letter.1 ≠ .query ∧ letter.2 ≠ '+' ∧ letter.2 ≠ '-' ∧ letter.2 ≠ '=' := by
    decide
  intro change member
  exact all _ ((finalChanges_sublist mode oldmode).subset (List.mem_map_of_mem member))

theorem finalFlags_read : ∀ flag ∈ finalFlags,
    simpleOfLetter flag.2 = some flag.1 ∧ flag.2 ≠ 'k' ∧ flag.2 ≠ 'l' := by
  decide

theorem mem_ite_singleton {α : Type} {p : Prop} [Decidable p] {a b : α} (member : b ∈ if p then [a] else []) :
    p ∧ b = a := by
  split at member
  · next here => exact ⟨here, List.mem_singleton.mp member⟩
  · cases member

theorem finalChanges_needed (mode oldmode : Mode) :
    ∀ change ∈ finalChanges mode oldmode, LetterNeeded mode oldmode (change.dir, change.letter) := by
  intro change member
  rcases List.mem_append.mp member with simple | param
  · rcases List.mem_append.mp simple with added | removed
    · obtain ⟨flag, listed, rfl⟩ := List.mem_map.mp added
      obtain ⟨listed, here⟩ := List.mem_filter.mp listed
      obtain ⟨read, noKey, noLimit⟩ := finalFlags_read flag listed
      rw [LetterNeeded, if_neg noKey, if_neg noLimit]
      exact ⟨flag.1, read, by simpa using here⟩
    · obtain ⟨flag, listed, rfl⟩ := List.mem_map.mp removed
      obtain ⟨listed, here⟩ := List.mem_filter.mp listed
      obtain ⟨read, noKey, noLimit⟩ := finalFlags_read flag listed
      rw [LetterNeeded, if_neg noKey, if_neg noLimit]
      exact ⟨flag.1, read, by simpa using here⟩
  · simp only [paramChanges, List.mem_append] at param
    rcases param with here | here | here | here <;> obtain ⟨⟨first, second⟩, rfl⟩ := mem_ite_singleton here
    · exact ⟨fun same => first (same.trans second), second⟩
    · exact ⟨fun same => first (same.trans second), second⟩
    · exact ⟨second, first⟩
    · exact ⟨second, first⟩

/-! ### What a reader makes of the letters -/

/-- Letters of simple modes take no parameters. -/
theorem readLetter_simple {flag : SimpleMode × Char} (known : flag ∈ finalFlags) (dir : Dir)
    (params : List (List Char)) (shown : ShownModes) :
    readLetter (dir, flag.2) params shown = some (params,
      { shown with mode := if dir = .del then shown.mode.erase flag.1 else insert flag.1 shown.mode }) := by
  obtain ⟨read, noKey, noLimit⟩ := finalFlags_read flag known
  unfold readLetter
  rw [if_neg noKey, if_neg noLimit, read]
  rfl

theorem applyLetters_add (flags : List (SimpleMode × Char)) (known : ∀ flag ∈ flags, flag ∈ finalFlags)
    (letters : List (Dir × Char)) (params : List (List Char)) (shown : ShownModes) :
    applyLetters (flags.map (fun flag => (.add, flag.2)) ++ letters) params shown =
      applyLetters letters params { shown with mode := (flags.map Prod.fst).toFinset ∪ shown.mode } := by
  induction flags generalizing shown with
  | nil => simp
  | cons flag flags ih =>
    obtain ⟨first, rest⟩ := List.forall_mem_cons.mp known
    rw [List.map_cons, List.cons_append, applyLetters, readLetter_simple first, Option.bind_some, ih rest]
    simp [Finset.insert_union, Finset.union_insert]

theorem applyLetters_del (flags : List (SimpleMode × Char)) (known : ∀ flag ∈ flags, flag ∈ finalFlags)
    (letters : List (Dir × Char)) (params : List (List Char)) (shown : ShownModes) :
    applyLetters (flags.map (fun flag => (.del, flag.2)) ++ letters) params shown =
      applyLetters letters params { shown with mode := shown.mode \ (flags.map Prod.fst).toFinset } := by
  induction flags generalizing shown with
  | nil => simp
  | cons flag flags ih =>
    obtain ⟨first, rest⟩ := List.forall_mem_cons.mp known
    rw [List.map_cons, List.cons_append, applyLetters, readLetter_simple first, Option.bind_some, ih rest]
    have same : (shown.mode.erase flag.1) \ (flags.map Prod.fst).toFinset =
        shown.mode \ ((flag :: flags).map Prod.fst).toFinset := by
      ext m
      simp
      tauto
    simp only [if_true, same]

theorem mem_finalFlags (m : SimpleMode) : ∃ flag ∈ finalFlags, flag.1 = m := by
  cases m <;> decide

/-- The letters of the simple modes make the old modes the new ones. -/
theorem applyLetters_simple (letters : List (Dir × Char)) (params : List (List Char)) (shown : ShownModes)
    (before : shown.mode = oldmode.mode) :
    applyLetters ((simpleChanges mode oldmode).map (fun change => (change.dir, change.letter)) ++ letters) params
        shown =
      applyLetters letters params { shown with mode := mode.mode } := by
  rw [simpleChanges, List.map_append, List.map_map, List.map_map, List.append_assoc]
  refine (applyLetters_add _ (fun flag member => List.mem_of_mem_filter member) _ _ _).trans ?_
  refine (applyLetters_del _ (fun flag member => List.mem_of_mem_filter member) _ _ _).trans ?_
  congr 2
  ext m
  obtain ⟨flag, listed, rfl⟩ := mem_finalFlags m
  have told (other : Finset SimpleMode) (one : Finset SimpleMode) :
      flag.1 ∈ ((finalFlags.filter fun flag => flag.1 ∈ one ∧ flag.1 ∉ other).map Prod.fst).toFinset ↔
        flag.1 ∈ one ∧ flag.1 ∉ other := by
    rw [List.mem_toFinset, List.mem_map]
    constructor
    · rintro ⟨flag', member, same⟩
      have here := (List.mem_filter.mp member).2
      rw [← same]
      simpa using here
    · intro here
      exact ⟨flag, List.mem_filter.mpr ⟨listed, by simpa using here⟩, rfl⟩
  rw [Finset.mem_sdiff, Finset.mem_union, told, told, before]
  tauto

/-! ### Parameters -/

section

variable {key text : List Char}

theorem atoi_printD {n : ℤ} (int : InInt n) : atoi (printD n) = n := by
  rw [atoi, atol_printD int.1 int.2, toInt_of_inInt int]

theorem readNumber_eq_some_iff {n : ℤ} (int : InInt n) : readNumber text = some n ↔ text = printD n := by
  unfold readNumber
  constructor
  · intro read
    obtain ⟨same, value⟩ := Option.ite_none_right_eq_some.mp read
    rw [← same, Option.some.inj value]
  · rintro rfl
    rw [atoi_printD int, if_pos rfl]

/-- Room for more words than there are characters is never used. -/
theorem spelled_room {j k : ℕ} (roomJ : text.length ≤ j) (roomK : text.length ≤ k) : spelled j text = spelled k text := by
  induction j generalizing k text with
  | zero =>
    rw [List.eq_nil_of_length_eq_zero (Nat.le_zero.mp roomJ), spelled_blank rfl, spelled_blank rfl]
  | succ j ih =>
    cases k with
    | zero => rw [List.eq_nil_of_length_eq_zero (Nat.le_zero.mp roomK), spelled_blank rfl, spelled_blank rfl]
    | succ k =>
      obtain blank | ⟨last, colon⟩ | ⟨some_, noColon⟩ := start_cases text
      · rw [spelled_blank blank, spelled_blank blank]
      · rw [spelled_colon colon, spelled_colon colon]
      · have word := List.length_pos_iff.mpr (isParam_takeWhile some_ noColon).nonempty
        have whole := congrArg List.length (List.takeWhile_append_dropWhile (p := (· != ' ')) (l := skipSpaces text))
        have skipped : (skipSpaces text).length ≤ text.length := (List.dropWhile_suffix _).length_le
        rw [List.length_append] at whole
        have later : spelled j ((skipSpaces text).dropWhile (· != ' ')) =
            spelled k ((skipSpaces text).dropWhile (· != ' ')) := ih (by omega) (by omega)
        rw [spelled_word some_ noColon, spelled_word some_ noColon, later]

theorem skipSpaces_append_blank (blank : skipSpaces key = []) (text : List Char) :
    skipSpaces (key ++ text) = skipSpaces text := by
  rw [skipSpaces, List.dropWhile_append]
  exact if_pos (List.isEmpty_iff.mpr blank)

theorem skipSpaces_append_some (some_ : skipSpaces key ≠ []) (text : List Char) :
    skipSpaces (key ++ text) = skipSpaces key ++ text := by
  rw [skipSpaces, List.dropWhile_append]
  exact if_neg (mt List.isEmpty_iff.mp some_)

theorem spelledParams_blank (blank : skipSpaces key = []) (text : List Char) :
    spelledParams (key ++ text) = spelledParams text := by
  rw [spelledParams, ← spelled_skipSpaces, skipSpaces_append_blank blank, spelled_skipSpaces]
  exact spelled_room (by simp) le_rfl

theorem spelledParams_colon {last : List Char} (colon : skipSpaces key = ':' :: last) (text : List Char) :
    spelledParams (key ++ text) = [last ++ text] := by
  have some_ : skipSpaces key ≠ [] := colon ▸ List.cons_ne_nil _ _
  exact spelled_colon (by rw [skipSpaces_append_some some_, colon, List.cons_append])

/-- The first word, and what is read behind it. -/
theorem spelledParams_first (some_ : skipSpaces key ≠ []) (noColon : (skipSpaces key).head? ≠ some ':')
    (text : List Char) :
    spelledParams (key ++ ' ' :: text) = (skipSpaces key).takeWhile (· != ' ') ::
      spelledParams ((skipSpaces key).dropWhile (· != ' ') ++ ' ' :: text) := by
  have isParam := isParam_takeWhile some_ noColon
  have split : skipSpaces (key ++ ' ' :: text) = (skipSpaces key).takeWhile (· != ' ') ++
      ((skipSpaces key).dropWhile (· != ' ') ++ ' ' :: text) := by
    rw [skipSpaces_append_some some_, ← List.append_assoc, List.takeWhile_append_dropWhile]
  have ends : ((skipSpaces key).dropWhile (· != ' ') ++ ' ' :: text).head? = some ' ' := by
    obtain done | space := head_dropWhile (skipSpaces key)
    · rw [done]
      rfl
    · rw [List.head?_append, space]
      rfl
  obtain ⟨word, more⟩ := takeWhile_word isParam.noSpace (.inr ends)
  have first : (skipSpaces (key ++ ' ' :: text)).head? = (skipSpaces key).head? := by
    rw [skipSpaces_append_some some_, List.head?_append_of_ne_nil _ some_]
  have room : (key ++ ' ' :: text).length = (key.length + text.length) + 1 := by simp; omega
  have size := congrArg List.length split
  have positive := List.length_pos_iff.mpr isParam.nonempty
  have skipped : (skipSpaces (key ++ ' ' :: text)).length ≤ (key ++ ' ' :: text).length :=
    (List.dropWhile_suffix _).length_le
  rw [List.length_append] at size
  rw [spelledParams, room, spelled_word (by rw [skipSpaces_append_some some_]; simp [some_]) (first ▸ noColon), split,
    word, more]
  exact congrArg _ (spelled_room (by omega) le_rfl)

/-- A parameter with a blank behind it comes first. -/
theorem spelledParams_word {word : List Char} (isParam : IsParam word) (more : List Char) :
    spelledParams (word ++ ' ' :: more) = word :: spelledParams more := by
  have skipped : skipSpaces word = word := by simpa using isParam.skipSpaces []
  have whole := takeWhile_word isParam.noSpace (.inl rfl)
  rw [List.append_nil] at whole
  rw [spelledParams_first (skipped.symm ▸ isParam.nonempty) (skipped.symm ▸ isParam.noColon), skipped, whole.1, whole.2]
  have blank : skipSpaces [' '] = [] := rfl
  exact congrArg _ (spelledParams_blank blank more)

theorem spelledParams_eq_nil_iff : spelledParams text = [] ↔ skipSpaces text = [] := by
  refine ⟨fun none => ?_, spelled_blank⟩
  by_contra some_
  have shape : spelledParams text = spelled (text.length - 1 + 1) text := spelled_room le_rfl (by omega)
  rw [shape, spelled, if_neg some_] at none
  split at none <;> cases none

/-- A text is read as itself exactly if it is one parameter. -/
theorem spelledParams_key_iff : spelledParams (key ++ [' ']) = [key] ↔ IsParam key := by
  constructor
  · intro same
    obtain blank | ⟨last, colon⟩ | ⟨some_, noColon⟩ := start_cases key
    · rw [spelledParams_blank blank] at same
      cases same
    · -- the colon is gone and the blank is not
      rw [spelledParams_colon colon, List.cons.injEq, and_iff_left rfl] at same
      have spaces := congrArg (List.count ':') same
      have kept : (skipSpaces key).count ':' ≤ key.count ':' := (List.dropWhile_sublist _).count_le _
      rw [colon, List.count_cons_self] at kept
      rw [List.count_append, List.count_singleton, if_neg (by decide)] at spaces
      omega
    · rw [spelledParams_first some_ noColon] at same
      exact (List.cons.inj same).1 ▸ isParam_takeWhile some_ noColon
  · intro isParam
    exact spelledParams_word isParam []

/-- A text in front of a limit is passed over exactly if it is blank. -/
theorem spelledParams_limit_iff (n : ℤ) :
    spelledParams (text ++ ' ' :: (printD n ++ [' '])) = [printD n] ↔ skipSpaces text = [] := by
  have limit : spelledParams (' ' :: (printD n ++ [' '])) = [printD n] := by
    have lead : skipSpaces [' '] = [] := rfl
    exact (spelledParams_blank lead _).trans (spelledParams_word (isParam_printD n) [])
  obtain blank | ⟨last, colon⟩ | ⟨some_, noColon⟩ := start_cases text
  · rw [spelledParams_blank blank]
    exact iff_of_true limit blank
  · rw [spelledParams_colon colon]
    refine iff_of_false (fun same => ?_) (colon ▸ List.cons_ne_nil _ _)
    have size := congrArg List.length (List.cons.inj same).1
    simp at size
    omega
  · refine iff_of_false (fun same => ?_) some_
    rw [spelledParams_first some_ noColon, List.cons.injEq, spelledParams_eq_nil_iff] at same
    refine skipSpaces_append_ne ?_ _ same.2
    rw [skipSpaces_cons_space, (isParam_printD n).skipSpaces]
    exact List.append_ne_nil_of_left_ne_nil (isParam_printD n).nonempty _

/-- A limit behind a key is read as itself exactly if the key is one word. -/
theorem spelledParams_key_limit_iff (n : ℤ) :
    (∃ param, spelledParams (key ++ ' ' :: (printD n ++ [' '])) = [param, printD n]) ↔
      (spelledParams (key ++ [' '])).length = 1 ∧ (skipSpaces key).head? ≠ some ':' := by
  obtain blank | ⟨last, colon⟩ | ⟨some_, noColon⟩ := start_cases key
  · rw [(spelledParams_limit_iff n).mpr blank, spelledParams_blank blank]
    exact iff_of_false (fun ⟨_, same⟩ => by cases same) fun both => absurd both.1 (by decide)
  · rw [spelledParams_colon colon, colon]
    exact iff_of_false (fun ⟨_, same⟩ => by cases same) fun both => both.2 rfl
  · rw [and_iff_left noColon, spelledParams_first some_ noColon, spelledParams_first some_ noColon]
    simp only [List.cons.injEq, spelledParams_limit_iff, List.length_cons, Nat.add_eq_right, List.length_eq_zero_iff,
      spelledParams_eq_nil_iff]
    -- a blank at the end changes nothing
    constructor
    · rintro ⟨_, -, blank⟩
      rw [skipSpaces_append_blank blank]
      rfl
    · intro blank
      refine ⟨_, rfl, ?_⟩
      by_contra more
      rw [skipSpaces_append_some more] at blank
      exact more (List.append_eq_nil_iff.mp blank).1

/-! ### The limit and the key -/

theorem applyLetters_delKey_iff (letters : List (Dir × Char)) (params : List (List Char)) (shown after : ShownModes) :
    applyLetters ((.del, 'k') :: letters) params shown = some after ↔
      ∃ param rest, params = param :: rest ∧ applyLetters letters rest { shown with key := [] } = some after := by
  cases params with
  | nil => exact iff_of_false (fun same => by cases same) fun ⟨_, _, same, _⟩ => by cases same
  | cons param params =>
    constructor
    · exact fun same => ⟨param, params, rfl, same⟩
    · rintro ⟨_, _, same, later⟩
      cases same
      exact later

theorem applyLetters_addKey_iff (params : List (List Char)) (shown after : ShownModes) :
    applyLetters [(.add, 'k')] params shown = some after ↔
      ∃ param, params = [param] ∧ { shown with key := param } = after := by
  cases params with
  | nil => exact iff_of_false (fun same => by cases same) fun ⟨_, same, _⟩ => by cases same
  | cons param params =>
    change (if params = [] then some { shown with key := param } else none) = some after ↔ _
    rw [Option.ite_none_right_eq_some, Option.some_inj]
    constructor
    · rintro ⟨rfl, same⟩
      exact ⟨param, rfl, same⟩
    · rintro ⟨_, same, later⟩
      cases same
      exact ⟨rfl, later⟩

theorem applyLetters_addLimit_iff (letters : List (Dir × Char)) (params : List (List Char))
    (shown after : ShownModes) :
    applyLetters ((.add, 'l') :: letters) params shown = some after ↔
      ∃ param rest n, params = param :: rest ∧ readNumber param = some n ∧
        applyLetters letters rest { shown with limit := n } = some after := by
  cases params with
  | nil => exact iff_of_false (fun same => by cases same) fun ⟨_, _, _, same, _⟩ => by cases same
  | cons param params =>
    change (((readNumber param).map fun limit => (params, { shown with limit := limit })).bind fun next =>
      applyLetters letters next.1 next.2) = some after ↔ _
    rw [Option.bind_map, Option.bind_eq_some_iff]
    constructor
    · rintro ⟨n, number, later⟩
      exact ⟨param, params, n, rfl, number, later⟩
    · rintro ⟨_, _, n, same, number, later⟩
      cases same
      exact ⟨n, number, later⟩

theorem applyLetters_nil_iff (params : List (List Char)) (shown after : ShownModes) :
    applyLetters [] params shown = some after ↔ params = [] ∧ shown = after := by
  rw [applyLetters, Option.ite_none_right_eq_some, Option.some_inj]

end

theorem eq_shown {shown : ShownModes} (modes : shown.mode = mode.mode) (limit : shown.limit = mode.limit)
    (key : shown.key = mode.key) : shown = mode.shown := by
  rw [Mode.shown, ← modes, ← limit, ← key]

/-- The limit that is taken away has no parameter. -/
theorem applyLetters_limitGone (p : Prop) [Decidable p] (changes : List FinalChange) (shown : ShownModes) :
    applyLetters (((if p then [FinalChange.mk .del 'l' none] else []) ++ changes).map fun change =>
          (change.dir, change.letter))
        (spelledParams ((changeParams ((if p then [FinalChange.mk .del 'l' none] else []) ++ changes)).flatMap
          fun param => param ++ [' '])) shown =
      applyLetters (changes.map fun change => (change.dir, change.letter))
        (spelledParams ((changeParams changes).flatMap fun param => param ++ [' ']))
        { shown with limit := if p then 0 else shown.limit } := by
  split <;> rfl

/-- The reader gets the limit and the key exactly if the keys read. -/
theorem applyLetters_params (mode oldmode : Mode) :
    applyLetters ((paramChanges mode oldmode).map fun change => (change.dir, change.letter))
        (spelledParams ((changeParams (paramChanges mode oldmode)).flatMap fun param => param ++ [' ']))
        { oldmode.shown with mode := mode.mode } = some mode.shown ↔
      KeysRead mode oldmode := by
  have number : readNumber (printD mode.limit) = some mode.limit := (readNumber_eq_some_iff mode.limit_int).mpr rfl
  have sameLimit (same : ¬(mode.limit ≠ 0 ∧ oldmode.limit ≠ mode.limit)) :
      (if oldmode.limit ≠ 0 ∧ mode.limit = 0 then 0 else oldmode.limit) = mode.limit := by
    by_cases zero : mode.limit = 0 <;> by_cases before : oldmode.limit = mode.limit <;> simp_all
  rw [paramChanges, applyLetters_limitGone, KeysRead]
  -- the two letters of the key exclude each other, and the limit is written before a new key and after an old one
  by_cases gone : oldmode.key ≠ [] ∧ mode.key = []
  · -- the key is taken away, and not set
    have noKey : ¬(mode.key ≠ [] ∧ oldmode.key ≠ mode.key) := fun both => both.1 gone.2
    rw [if_pos gone, if_neg noKey, List.append_nil, imp_iff_right gone, and_iff_right fun both => absurd both noKey]
    by_cases limit : mode.limit ≠ 0 ∧ oldmode.limit ≠ mode.limit
    · rw [if_pos limit, imp_iff_right limit, ← spelledParams_key_limit_iff mode.limit]
      refine (applyLetters_delKey_iff _ _ _ _).trans ?_
      have text : (changeParams ([⟨.del, 'k', some oldmode.key⟩] ++ [⟨.add, 'l', some (printD mode.limit)⟩])).flatMap
          (fun param => param ++ [' ']) = oldmode.key ++ ' ' :: (printD mode.limit ++ [' ']) := by
        simp [changeParams]
      rw [text]
      constructor
      · rintro ⟨param, rest, params, later⟩
        obtain ⟨word, more, n, rfl, read, done⟩ := (applyLetters_addLimit_iff _ _ _ _).mp later
        obtain ⟨rfl, same⟩ := (applyLetters_nil_iff _ _ _).mp done
        have value : n = mode.limit := congrArg ShownModes.limit same
        rw [value, readNumber_eq_some_iff mode.limit_int] at read
        exact ⟨param, read ▸ params⟩
      · rintro ⟨param, params⟩
        refine ⟨param, _, params, (applyLetters_addLimit_iff _ _ _ _).mpr ⟨_, _, _, rfl, number, ?_⟩⟩
        exact (applyLetters_nil_iff _ _ _).mpr ⟨rfl, eq_shown rfl rfl gone.2.symm⟩
    · rw [if_neg limit, List.append_nil, and_iff_left fun changed => absurd changed limit, List.length_eq_one_iff]
      refine (applyLetters_delKey_iff _ _ _ _).trans ?_
      have text : (changeParams [⟨.del, 'k', some oldmode.key⟩]).flatMap (fun param => param ++ [' ']) =
          oldmode.key ++ [' '] := by
        simp [changeParams]
      rw [text]
      constructor
      · rintro ⟨param, rest, params, later⟩
        exact ⟨param, ((applyLetters_nil_iff _ _ _).mp later).1 ▸ params⟩
      · rintro ⟨param, params⟩
        exact ⟨param, [], params, (applyLetters_nil_iff _ _ _).mpr ⟨rfl, eq_shown rfl (sameLimit limit) gone.2.symm⟩⟩
  · rw [if_neg gone, List.nil_append, and_iff_left fun both => absurd both gone]
    -- a new key is set
    by_cases key : mode.key ≠ [] ∧ oldmode.key ≠ mode.key
    · rw [if_pos key, imp_iff_right key, ← spelledParams_key_iff]
      have set (shown : ShownModes) (modes : shown.mode = mode.mode) (limit : shown.limit = mode.limit) :
          applyLetters [(.add, 'k')] (spelledParams (mode.key ++ [' '])) shown = some mode.shown ↔
            spelledParams (mode.key ++ [' ']) = [mode.key] := by
        rw [applyLetters_addKey_iff]
        constructor
        · rintro ⟨param, params, same⟩
          have key : param = mode.key := congrArg ShownModes.key same
          exact key ▸ params
        · intro params
          exact ⟨mode.key, params, eq_shown modes limit rfl⟩
      by_cases limit : mode.limit ≠ 0 ∧ oldmode.limit ≠ mode.limit
      · rw [if_pos limit]
        have text : (changeParams ([⟨.add, 'l', some (printD mode.limit)⟩] ++ [⟨.add, 'k', some mode.key⟩])).flatMap
            (fun param => param ++ [' ']) = printD mode.limit ++ ' ' :: (mode.key ++ [' ']) := by
          simp [changeParams]
        rw [text, spelledParams_word (isParam_printD _)]
        refine (applyLetters_addLimit_iff _ _ _ _).trans ?_
        constructor
        · rintro ⟨_, _, n, same, read, later⟩
          cases same
          exact (set _ rfl (Option.some.inj (read.symm.trans number))).mp later
        · intro params
          exact ⟨_, _, _, rfl, number, (set _ rfl rfl).mpr params⟩
      · rw [if_neg limit, List.nil_append]
        have text : (changeParams [⟨.add, 'k', some mode.key⟩]).flatMap (fun param => param ++ [' ']) =
            mode.key ++ [' '] := by
          simp [changeParams]
        rw [text]
        exact set _ rfl (sameLimit limit)
    · -- the key is what it was
      have same : oldmode.key = mode.key := by
        by_cases none : mode.key = []
        · by_contra other
          exact gone ⟨fun empty => other (empty.trans none.symm), none⟩
        · by_contra other
          exact key ⟨none, other⟩
      rw [if_neg key, List.append_nil]
      refine iff_of_true ?_ fun both => absurd both key
      by_cases limit : mode.limit ≠ 0 ∧ oldmode.limit ≠ mode.limit
      · rw [if_pos limit]
        have text : (changeParams [⟨.add, 'l', some (printD mode.limit)⟩]).flatMap (fun param => param ++ [' ']) =
            printD mode.limit ++ ' ' :: [] := by
          simp [changeParams]
        rw [text, spelledParams_word (isParam_printD _)]
        refine (applyLetters_addLimit_iff _ _ _ _).mpr ⟨_, _, _, rfl, number, ?_⟩
        exact (applyLetters_nil_iff _ _ _).mpr ⟨rfl, eq_shown rfl rfl same⟩
      · rw [if_neg limit]
        exact (applyLetters_nil_iff _ _ _).mpr ⟨rfl, eq_shown rfl (sameLimit limit) same⟩

theorem changeParams_finalChanges (mode oldmode : Mode) :
    changeParams (finalChanges mode oldmode) = changeParams (paramChanges mode oldmode) := by
  have none : changeParams (simpleChanges mode oldmode) = [] := by
    rw [changeParams, List.filterMap_eq_nil_iff]
    intro change member
    rcases List.mem_append.mp member with here | here <;> obtain ⟨flag, -, rfl⟩ := List.mem_map.mp here <;> rfl
  rw [finalChanges, changeParams, List.filterMap_append]
  exact (congrArg (· ++ _) none).trans (List.nil_append _)

theorem replays_iff (mode oldmode : Mode) : Replays mode oldmode ↔ KeysRead mode oldmode := by
  obtain ⟨letters, params⟩ := foldl_write (finalChanges mode oldmode) ⟨.query, [], [], 0⟩
  rw [Replays, setFinalMode_eq, letters, params, List.nil_append, List.nil_append, changeParams_finalChanges,
    signedLetters_letterText (finalChanges_plain mode oldmode) (fun change => absurd rfl change), finalChanges,
    List.map_append, applyLetters_simple _ _ _ rfl, applyLetters_params]

/-- The letters are those that are needed, each once, with signs that alternate, and they turn the old modes into the
new ones exactly if the keys read. -/
theorem set_final_mode_right_iff (mode oldmode : Mode) : FinalModeRight mode oldmode ↔ KeysRead mode oldmode := by
  rw [← replays_iff]
  constructor
  · exact FinalModeRight.replays
  · intro replays
    have letters : (setFinalMode mode oldmode).mbuf = letterText .query (finalChanges mode oldmode) := by
      rw [setFinalMode_eq, (foldl_write _ _).1, List.nil_append]
    have signed : signedLetters .add (setFinalMode mode oldmode).mbuf =
        (finalChanges mode oldmode).map fun change => (change.dir, change.letter) := by
      rw [letters]
      exact signedLetters_letterText (finalChanges_plain mode oldmode) fun change => absurd rfl change
    constructor
    · exact replays
    · rw [signed]
      exact List.forall_mem_map.mpr (finalChanges_needed mode oldmode)
    · rw [signed]
      exact finalChanges_nodup mode oldmode
    · rw [letters]
      exact signsAlternate_letterText (finalChanges_plain mode oldmode)

/-- Another server has set the key `a`, the byte 0xa0 and `b`. It has become two parameters, and a SJOIN takes it
away. -/
theorem blank_key_left_over :
    ¬ ∀ mode oldmode : Mode, FinalModeRight mode oldmode := by
  intro right
  have replays := (right noMode (noMode.setKey (fixKeyOld ['a', '\xa0', 'b']))).replays
  revert replays
  unfold Replays
  decide

end

end Ircd.Chan
