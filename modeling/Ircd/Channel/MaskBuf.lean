import Ircd.Channel.Collapse
import Ircd.Channel.ModeSteps
import Ircd.Lib.Arena
import Mathlib.Algebra.Order.BigOperators.Group.List
import Mathlib.Data.List.TakeWhile

/-!
# The masks of one command

`mask_buf` of `src/channel_mode.c` while `set_channel_mode` serves a local client: which pointers `chm_ban`,
`chm_except` and `chm_invex` hand to `add_id`, to `del_id` and to the list of changes, and what lies there. A
mask that finds no room is NULL, and a mask that is taken off a list may be the parameter itself.
-/
namespace Ircd.Chan

/-- Who is handed a mask. -/
inductive Receiver where
  | addId
  | delId
  | changeLog
deriving DecidableEq

/-- A pointer to a mask: NULL, a place in `mask_buf`, or the parameter of this number. -/
inductive MaskPtr where
  | null
  | buf (p : ℕ)
  | param (i : ℕ)
deriving DecidableEq

/-- A mask that is handed on, to be set or taken off: the text that the receiver sees, `mask_buf` at this moment, and
the parameters that the command has turned into masks up to this one. -/
structure Handed where
  receiver : Receiver
  dir : Dir
  mask : MaskPtr
  text : Option (List Char)
  cells : ℕ → Char
  params : List (List Char)

/-- The loop over the letters, with `mask_buf` and all that has been handed on. It stops where the server does. -/
structure MaskRun where
  run : Option ModeRun
  cells : ℕ → Char
  params : List (List Char)
  handed : List Handed

/-- The list that a letter is for. -/
def maskType : Char → Option MaskType
  | 'b' => some .ban
  | 'e' => some .exception
  | 'I' => some .invex
  | _ => none

/-- The parameter that `chm_ban` takes. -/
def ModeContext.maskParam (x : ModeContext) (dir : Dir) (r : ModeRun) : Option (List Char) :=
  if dir = .query ∨ x.alev < chaccessHalfop ∨ x.mine = true ∧ r.modeLimit > 4 then none else x.param r

/-- What `pretty_mask` leaves in `mask_buf`. -/
def prettyCells (cells : ℕ → Char) (maskPos : ℕ) (raw : List Char) : ℕ → Char :=
  match prettyMask maskPos raw with
  | none => cells
  | some mask => Arena.write '\x00' cells maskPos mask

/-- What `pretty_mask` returns. -/
def prettyPtr (maskPos : ℕ) (raw : List Char) : MaskPtr :=
  match prettyMask maskPos raw with
  | none => .null
  | some _ => .buf maskPos

/-- What `add_id` leaves in `mask_buf`: the mask of a local client is collapsed there, unless the list is full. -/
def State.addIdCells (s : State) (source : ClientId) (ch : Channel) (maskPos : ℕ) (mask : Option (List Char))
    (cells : ℕ → Char) : ℕ → Char :=
  if (s.client source).status ≠ .server ∧ ch.numMask ≥ s.maxbans ∧ (s.client source).mine = true then cells
  else
    match mask with
    | none => cells
    | some mask => if (s.client source).mine then Arena.write '\x00' cells maskPos (collapse mask) else cells

/-- What is handed on for one letter, and `mask_buf` behind it. -/
def ModeContext.handOn (x : ModeContext) (type : MaskType) (dir : Dir) (raw : List Char) (r : ModeRun)
    (cells : ℕ → Char) (params : List (List Char)) : List Handed × (ℕ → Char) :=
  let mask := prettyMask r.maskPos raw
  let ptr := prettyPtr r.maskPos raw
  let pretty := prettyCells cells r.maskPos raw
  let letter := type.letter
  match dir with
  | .query => ([], cells)
  | .add =>
    let after := x.s.addIdCells x.source r.changes.ch r.maskPos mask pretty
    let logged :=
      match x.s.addId x.source r.changes.ch mask type with
      | some (some (_, mask)) =>
        if (wipeFirst (·.isFor [letter] mask) r.changes.minus).isNone then
          [⟨.changeLog, .add, ptr, some mask, after, params⟩]
        else []
      | _ => []
    (⟨.addId, .add, ptr, mask, pretty, params⟩ :: logged, after)
  | .del =>
    let logged := fun (ptr : MaskPtr) (mask : Option (List Char)) =>
      if (wipeFirst (·.isFor [letter] (mask.getD [])) r.changes.plus).isNone then
        [Handed.mk .changeLog .del ptr mask pretty params]
      else []
    let rest :=
      if (r.changes.ch.delId mask type).isSome then logged ptr mask
      else
        -- the mask is not on the list: the parameter is tried as it is
        ⟨.delId, .del, .param r.parn, some (cutSpace raw), pretty, params⟩ ::
          if (r.changes.ch.delId (some (cutSpace raw)) type).isSome then
            logged (.param r.parn) (some (cutSpace raw))
          else []
    (⟨.delId, .del, ptr, mask, pretty, params⟩ :: rest, pretty)

/-- One letter that is none of the signs. -/
def MaskRun.letter (x : ModeContext) (dir : Dir) (c : Char) (m : MaskRun) : MaskRun :=
  match m.run with
  | none => m
  | some r =>
    match maskType c, x.maskParam dir r with
    | some type, some raw =>
      let params := m.params ++ [raw]
      let (handed, cells) := x.handOn type dir raw r m.cells params
      ⟨modeTable x dir c r, cells, params, m.handed ++ handed⟩
    | _, _ => { m with run := modeTable x dir c r }

/-- The loop of `set_channel_mode`. -/
def MaskRun.read (x : ModeContext) : List Char → Dir → MaskRun → MaskRun
  | [], _, m => m
  | c :: letters, dir, m =>
    if c = '+' ∨ c = '-' ∨ c = '=' then MaskRun.read x letters (dir.read c) m
    else MaskRun.read x letters dir (m.letter x dir c)

/-- `set_channel_mode`, with `mask_buf` as earlier commands have left it. -/
def ModeCommand.maskRun (m : ModeCommand) (s : State) (cells : ℕ → Char) : MaskRun :=
  MaskRun.read (m.context s) (m.parv.headD []) .add ⟨some (m.start s), cells, [], []⟩

theorem MaskRun.letter_run (x : ModeContext) (dir : Dir) (c : Char) (m : MaskRun) :
    (m.letter x dir c).run = m.run.bind (modeTable x dir c) := by
  unfold MaskRun.letter
  cases run : m.run with
  | none => simp [run]
  | some r =>
    dsimp only [Option.bind_some]
    split <;> rfl

theorem MaskRun.read_run (x : ModeContext) (letters : List Char) (dir : Dir) (m : MaskRun) :
    (MaskRun.read x letters dir m).run = m.run.bind (readLetters x letters dir) := by
  induction letters generalizing dir m with
  | nil => simp [MaskRun.read, readLetters]
  | cons c letters ih =>
    simp only [MaskRun.read, readLetters]
    split
    · exact ih (dir.read c) m
    · rw [ih, letter_run, Option.bind_assoc]
      congr 1
      funext r
      cases modeTable x dir c r <;> rfl

/-- The letters do what they do in `set_channel_mode`. -/
theorem ModeCommand.maskRun_run (m : ModeCommand) (s : State) (cells : ℕ → Char) :
    (m.maskRun s cells).run.map ModeRun.changes = s.setChannelMode m := by
  rw [maskRun, MaskRun.read_run]
  rfl

/-! ### What is promised -/

/-- What a parameter may take up in `mask_buf`. -/
def maskCost (raw : List Char) : ℕ := max 1 raw.length + 5

/-- Most that these parameters may take up. -/
def maskCosts (params : List (List Char)) : ℕ := (params.map maskCost).sum

/-- A place in `mask_buf` has a string that ends there, and what is put on the list of changes is still there in the
end. The parameter itself is handed on only to be taken off a list, and NULL only when there was no room. -/
def Handed.Right (parv : List (List Char)) (cells : ℕ → Char) (h : Handed) : Prop :=
  match h.mask with
  | .buf p => ∃ text, h.text = some text ∧ p + text.length < bufSize ∧ Arena.Holds '\x00' h.cells p text ∧
      (h.receiver = .changeLog → Arena.Holds '\x00' cells p text)
  | .param i => h.dir = .del ∧ ∃ raw, parv[i]? = some raw ∧ h.text = some (cutSpace raw)
  | .null => bufSize < maskCosts h.params

/-- The pointer is to a string in `mask_buf`, and what is put on the list of changes is still there in the end. -/
def Handed.InBuffer (cells : ℕ → Char) (h : Handed) : Prop :=
  ∃ p text, h.mask = .buf p ∧ p + text.length < bufSize ∧ Arena.Holds '\x00' h.cells p text ∧
    (h.receiver = .changeLog → Arena.Holds '\x00' cells p text)

/-- The length of the line `MODE <channel> <letters> <parameters>`. An empty parameter has a colon. -/
def ModeCommand.lineLength (m : ModeCommand) (chname : List Char) : ℕ :=
  4 + (1 + chname.length) + (m.parv.map fun param => 1 + max 1 param.length).sum

/-! ### One mask -/

theorem length_checkString_le (raw : List Char) : (checkString raw).length ≤ max 1 raw.length := by
  unfold checkString
  split_ifs
  · exact Nat.le_max_left _ _
  · exact (List.takeWhile_sublist _).length_le.trans (Nat.le_max_right _ _)

theorem length_cutAt {c : Char} {text : List Char} (found : c ∈ text) :
    (cutAt c text).1.length + (cutAt c text).2.length + 1 = text.length := by
  have parts := congrArg List.length (List.takeWhile_append_dropWhile (p := (· != c)) (l := text))
  have rest : text.dropWhile (· != c) ≠ [] := by
    intro nothing
    rw [List.dropWhile_eq_nil_iff] at nothing
    simpa using nothing c found
  have rest := List.length_pos_iff.mpr rest
  rw [List.length_append] at parts
  simp only [cutAt, List.length_tail]
  omega

theorem mem_of_mem_cutAt {c d : Char} {text : List Char}
    (inside : d ∈ (cutAt c text).1 ∨ d ∈ (cutAt c text).2) : d ∈ text := by
  obtain front | back := inside
  · exact (List.takeWhile_sublist _).mem front
  · exact (List.dropWhile_sublist _).mem (List.mem_of_mem_tail back)

theorem splitMask_eq (mask : List Char) :
    splitMask mask =
      if '@' ∈ mask then
        if '!' ∈ (cutAt '@' mask).1 then
          ((cutAt '!' (cutAt '@' mask).1).1, (cutAt '!' (cutAt '@' mask).1).2, (cutAt '@' mask).2)
        else (['*'], (cutAt '@' mask).1, (cutAt '@' mask).2)
      else if '!' ∈ mask then ((cutAt '!' mask).1, (cutAt '!' mask).2, ['*'])
      else if '.' ∈ mask ∧ ':' ∈ mask then (['*'], ['*'], mask)
      else (mask, ['*'], ['*']) :=
  rfl

theorem length_splitMask_le (mask : List Char) :
    (splitMask mask).1.length + (splitMask mask).2.1.length + (splitMask mask).2.2.length ≤ mask.length + 2 := by
  rw [splitMask_eq]
  split_ifs with at_ bang bang'
  · have host := length_cutAt at_
    have user := length_cutAt bang
    dsimp only
    omega
  · have host := length_cutAt at_
    simp only [List.length_singleton]
    omega
  · have user := length_cutAt bang'
    simp only [List.length_singleton]
    omega
  · simp only [List.length_singleton]
    omega
  · simp only [List.length_singleton]
    omega

/-- The parts of a mask consist of its characters and of stars. -/
theorem mem_of_mem_splitMask {c : Char} {mask : List Char}
    (inside : c ∈ (splitMask mask).1 ∨ c ∈ (splitMask mask).2.1 ∨ c ∈ (splitMask mask).2.2) :
    c ∈ mask ∨ c = '*' := by
  rw [splitMask_eq] at inside
  split_ifs at inside
  · obtain nick | user | host := inside
    · exact .inl (mem_of_mem_cutAt (.inl (mem_of_mem_cutAt (.inl nick))))
    · exact .inl (mem_of_mem_cutAt (.inl (mem_of_mem_cutAt (.inr user))))
    · exact .inl (mem_of_mem_cutAt (.inr host))
  · obtain nick | user | host := inside
    · exact .inr (List.mem_singleton.mp nick)
    · exact .inl (mem_of_mem_cutAt (.inl user))
    · exact .inl (mem_of_mem_cutAt (.inr host))
  · obtain nick | user | host := inside
    · exact .inl (mem_of_mem_cutAt (.inl nick))
    · exact .inl (mem_of_mem_cutAt (.inr user))
    · exact .inr (List.mem_singleton.mp host)
  · simp only [List.mem_singleton] at inside
    tauto
  · simp only [List.mem_singleton] at inside
    tauto

theorem prettyMask_eq (maskPos : ℕ) (text : List Char) :
    prettyMask maskPos text =
      if bufSize < maskPos + ((checkString text).length + 5) then none
      else
        some ((splitMask (checkString text)).1.take nickLen ++ ['!'] ++
          (splitMask (checkString text)).2.1.take userLen ++ ['@'] ++
          (splitMask (checkString text)).2.2.take hostLen) :=
  rfl

theorem prettyMask_eq_none {maskPos : ℕ} {raw : List Char} (none_ : prettyMask maskPos raw = none) :
    bufSize < maskPos + maskCost raw := by
  rw [prettyMask_eq] at none_
  split_ifs at none_ with full
  have long := length_checkString_le raw
  unfold maskCost
  omega

/-- A mask takes up no more than its parameter may, and ends in the buffer. -/
theorem prettyMask_fits {maskPos : ℕ} {raw mask : List Char} (pretty : prettyMask maskPos raw = some mask) :
    mask.length + 1 ≤ maskCost raw ∧ maskPos + mask.length < bufSize := by
  rw [prettyMask_eq] at pretty
  split_ifs at pretty with full
  obtain rfl := Option.some.inj pretty
  have long := length_checkString_le raw
  have parts := length_splitMask_le (checkString raw)
  have nick := List.length_take_le' nickLen (splitMask (checkString raw)).1
  have user := List.length_take_le' userLen (splitMask (checkString raw)).2.1
  have host := List.length_take_le' hostLen (splitMask (checkString raw)).2.2
  simp only [List.length_append, List.length_singleton, maskCost]
  omega

theorem prettyMask_clean {maskPos : ℕ} {raw mask : List Char} (pretty : prettyMask maskPos raw = some mask)
    (clean : '\x00' ∉ raw) : '\x00' ∉ mask := by
  have checked : '\x00' ∉ checkString raw := by
    unfold checkString
    split_ifs
    · decide
    · exact fun inside => clean ((List.takeWhile_sublist _).mem inside)
  have part (inside : '\x00' ∈ (splitMask (checkString raw)).1 ∨ '\x00' ∈ (splitMask (checkString raw)).2.1 ∨
      '\x00' ∈ (splitMask (checkString raw)).2.2) : False :=
    (mem_of_mem_splitMask inside).elim checked (by decide)
  rw [prettyMask_eq] at pretty
  split_ifs at pretty
  obtain rfl := Option.some.inj pretty
  simp only [List.mem_append, List.mem_singleton, not_or]
  refine ⟨⟨⟨⟨?_, by decide⟩, ?_⟩, by decide⟩, ?_⟩
  · exact fun inside => part (.inl (List.mem_of_mem_take inside))
  · exact fun inside => part (.inr (.inl (List.mem_of_mem_take inside)))
  · exact fun inside => part (.inr (.inr (List.mem_of_mem_take inside)))

/-! ### One letter -/

/-- The letter has taken no mask. -/
structure Steady (r r' : ModeRun) : Prop where
  maskPos : r'.maskPos = r.maskPos
  parn : r.parn ≤ r'.parn

section

variable {x : ModeContext} {dir : Dir} {c : Char} {r r' : ModeRun}

theorem Steady.refl (r : ModeRun) : Steady r r := ⟨rfl, Nat.le_refl _⟩

theorem steady_chmSimple (mode : SimpleMode) : Steady r (chmSimple mode x dir c r) := by
  unfold chmSimple
  split <;> exact ⟨rfl, Nat.le_refl _⟩

theorem steady_chmHideops : Steady r (chmHideops x dir c r) := by
  unfold chmHideops
  split <;> exact ⟨rfl, Nat.le_refl _⟩

theorem steady_opTarget : Steady r (opTarget x dir r).1 := by
  fun_cases opTarget x dir r <;> first | exact ⟨rfl, Nat.le_refl _⟩ | exact ⟨rfl, Nat.le_succ _⟩

theorem steady_halfopTarget : Steady r (halfopTarget x dir r).1 := by
  fun_cases halfopTarget x dir r <;> first | exact ⟨rfl, Nat.le_refl _⟩ | exact ⟨rfl, Nat.le_succ _⟩

theorem steady_voiceTarget : Steady r (voiceTarget x dir r).1 := by
  fun_cases voiceTarget x dir r <;> first | exact ⟨rfl, Nat.le_refl _⟩ | exact ⟨rfl, Nat.le_succ _⟩

theorem steady_chmLimit : Steady r (chmLimit x dir c r) := by
  fun_cases chmLimit x dir c r <;> first | exact ⟨rfl, Nat.le_refl _⟩ | exact ⟨rfl, Nat.le_succ _⟩

theorem steady_chmKey (done : chmKey x dir c r = some r') : Steady r r' := by
  unfold chmKey at done
  split at done
  · cases done
    exact .refl r
  · split at done
    · cases done
      exact .refl r
    · cases done
      exact .refl r
    · dsimp only at done
      split_ifs at done <;> cases done <;> exact ⟨rfl, Nat.le_succ _⟩
    · cases done
      exact ⟨rfl, Nat.le_refl _⟩

theorem steady_chmOp : Steady r (chmOp x dir c r) := by
  have checked := @steady_opTarget x dir r
  unfold chmOp
  split
  · next target =>
    rw [target] at checked
    exact checked
  · next target =>
    rw [target] at checked
    exact ⟨checked.maskPos, checked.parn⟩

theorem steady_chmHalfop : Steady r (chmHalfop x dir c r) := by
  have checked := @steady_halfopTarget x dir r
  unfold chmHalfop
  split
  · next target =>
    rw [target] at checked
    exact checked
  · next target =>
    rw [target] at checked
    exact ⟨checked.maskPos, checked.parn⟩

theorem steady_chmVoice : Steady r (chmVoice x dir c r) := by
  have checked := @steady_voiceTarget x dir r
  unfold chmVoice
  split
  · next target =>
    rw [target] at checked
    exact checked
  · next target =>
    rw [target] at checked
    exact ⟨checked.maskPos, checked.parn⟩

/-- What `chm_ban` makes of `mask_pos` and of the parameters. -/
theorem chmMask_cases {type : MaskType} {entry : List Char → ChModeChange}
    (client : (x.s.client x.clientP).status ≠ .server) (done : chmMask type entry x dir c r = some r') :
    x.maskParam dir r = none ∧ Steady r r' ∨
      ∃ raw, x.maskParam dir r = some raw ∧ r'.parn = r.parn + 1 ∧
        r'.maskPos = r.maskPos + ((prettyMask r.maskPos raw).map fun mask => mask.length + 1).getD 0 := by
  unfold chmMask at done
  cases given_ : x.param r with
  | none =>
    simp only [given_] at done
    cases done
    exact .inl ⟨by simp [ModeContext.maskParam, given_], .refl r⟩
  | some raw =>
    simp only [given_] at done
    split at done
    · next refused =>
      cases done
      exact .inl ⟨if_pos (refused.imp id .inl), .refl r⟩
    · next allowed =>
      split at done
      · next full =>
        cases done
        exact .inl ⟨if_pos (.inr (.inr full)), ⟨rfl, Nat.le_refl _⟩⟩
      · next room =>
        obtain ⟨changes, -, rfl⟩ := Option.map_eq_some_iff.mp done
        refine .inr ⟨raw, ?_, rfl, rfl⟩
        rw [ModeContext.maskParam, if_neg, given_]
        rintro (query | access | full)
        · exact allowed (.inl query)
        · exact allowed (.inr access)
        · exact room full

/-- A letter for no list of masks leaves `mask_pos` as it is. -/
theorem steady_modeTable (other : maskType c = none) (done : modeTable x dir c r = some r') : Steady r r' := by
  unfold modeTable at done
  split at done
  · cases other
  · cases done
    exact steady_chmHideops
  · cases other
  · cases other
  · cases done
    exact steady_chmHalfop
  · cases done
    exact steady_chmSimple _
  · exact steady_chmKey done
  · cases done
    exact steady_chmLimit
  · cases done
    exact steady_chmSimple _
  · cases done
    exact steady_chmSimple _
  · cases done
    exact steady_chmOp
  · cases done
    exact steady_chmSimple _
  · cases done
    exact steady_chmSimple _
  · cases done
    exact steady_chmSimple _
  · cases done
    exact steady_chmVoice
  · cases done
    exact .refl _

theorem modeTable_mask {type : MaskType} (letter : maskType c = some type) :
    c = type.letter ∧ modeTable x dir c r = chmMask type type.entry x dir c r := by
  unfold maskType at letter
  split at letter <;> cases letter <;> exact ⟨rfl, rfl⟩

end

/-! ### What is handed on -/

/-- A mask in `mask_buf` ends in front of this place. -/
def Handed.Before (h : Handed) (pos : ℕ) : Prop :=
  ∀ p text, h.mask = .buf p → h.text = some text → p + text.length < pos

theorem Handed.Before.mono {h : Handed} {pos pos' : ℕ} (before : h.Before pos) (grown : pos ≤ pos') :
    h.Before pos' :=
  fun p text place given_ => Nat.lt_of_lt_of_le (before p text place given_) grown

/-- What is written behind a mask does not change what is said of it. -/
theorem Handed.Right.write {parv : List (List Char)} {cells cells' : ℕ → Char} {h : Handed} {pos : ℕ}
    (right : h.Right parv cells) (before : h.Before pos) (same : ∀ i, i < pos → cells' i = cells i) :
    h.Right parv cells' := by
  unfold Handed.Right at right ⊢
  split
  · next p place =>
    rw [place] at right
    obtain ⟨text, given_, inside, holds, kept⟩ := right
    refine ⟨text, given_, inside, holds, fun logged => (kept logged).congr fun i place' => same i ?_⟩
    exact Nat.lt_of_le_of_lt place' (before p text place given_)
  · next i place =>
    rw [place] at right
    exact right
  · next place =>
    rw [place] at right
    exact right

/-- Where `mask_pos` is behind a mask. -/
def nextPos (maskPos : ℕ) (raw : List Char) : ℕ :=
  maskPos + ((prettyMask maskPos raw).map fun mask => mask.length + 1).getD 0

theorem prettyCells_of_lt (cells : ℕ → Char) {maskPos i : ℕ} (raw : List Char) (front : i < maskPos) :
    prettyCells cells maskPos raw i = cells i := by
  unfold prettyCells
  cases prettyMask maskPos raw with
  | none => rfl
  | some mask => exact Arena.write_of_lt _ _ front

theorem addIdCells_of_lt (s : State) (source : ClientId) (ch : Channel) {maskPos i : ℕ}
    (mask : Option (List Char)) (cells : ℕ → Char) (front : i < maskPos) :
    s.addIdCells source ch maskPos mask cells i = cells i := by
  unfold State.addIdCells
  cases mask with
  | none => split_ifs <;> rfl
  | some mask =>
    dsimp only
    split_ifs
    · rfl
    · exact Arena.write_of_lt _ _ front
    · rfl

section

variable {x : ModeContext} {r : ModeRun} {raw : List Char} (cells : ℕ → Char) {params : List (List Char)}

/-- The mask that `pretty_mask` has made is handed on. -/
theorem pretty_right (clean : '\x00' ∉ raw) (used : r.maskPos ≤ maskCosts params) (receiver : Receiver) (dir : Dir)
    (cells' : ℕ → Char) (kept : receiver = .changeLog → cells' = prettyCells cells r.maskPos raw) :
    Handed.Right x.parv cells' ⟨receiver, dir, prettyPtr r.maskPos raw, prettyMask r.maskPos raw,
      prettyCells cells r.maskPos raw, params ++ [raw]⟩ ∧
    Handed.Before ⟨receiver, dir, prettyPtr r.maskPos raw, prettyMask r.maskPos raw,
      prettyCells cells r.maskPos raw, params ++ [raw]⟩ (nextPos r.maskPos raw) := by
  unfold Handed.Right Handed.Before prettyPtr prettyCells nextPos
  cases pretty : prettyMask r.maskPos raw with
  | none =>
    refine ⟨?_, fun p text place => by cases place⟩
    have full := prettyMask_eq_none pretty
    simp only [maskCosts, List.map_append, List.sum_append, List.map_singleton, List.sum_singleton] at used ⊢
    omega
  | some mask =>
    have written := Arena.holds_write cells r.maskPos (prettyMask_clean pretty clean)
    refine ⟨⟨mask, rfl, (prettyMask_fits pretty).2, written, fun logged => ?_⟩, ?_⟩
    · rw [kept logged, prettyCells, pretty]
      exact written
    · intro p text place given_
      cases place
      cases given_
      simp

variable (params) in
/-- A mask that `add_id` has put on the list goes to the changes as `add_id` has left it. -/
theorem added_right {type : MaskType} {ch : Channel} {mask : List Char} (clean : '\x00' ∉ raw)
    (mine : x.mine = true)
    (added : x.s.addId x.source r.changes.ch (prettyMask r.maskPos raw) type = some (some (ch, mask))) :
    Handed.Right x.parv (x.s.addIdCells x.source r.changes.ch r.maskPos (prettyMask r.maskPos raw)
        (prettyCells cells r.maskPos raw))
      ⟨.changeLog, .add, prettyPtr r.maskPos raw, some mask, x.s.addIdCells x.source r.changes.ch r.maskPos
        (prettyMask r.maskPos raw) (prettyCells cells r.maskPos raw), params ++ [raw]⟩ ∧
    Handed.Before ⟨.changeLog, .add, prettyPtr r.maskPos raw, some mask, x.s.addIdCells x.source r.changes.ch
        r.maskPos (prettyMask r.maskPos raw) (prettyCells cells r.maskPos raw), params ++ [raw]⟩
      (nextPos r.maskPos raw) := by
  have mine : (x.s.client x.source).mine = true := mine
  unfold State.addId at added
  dsimp only at added
  by_cases full : (x.s.client x.source).status ≠ .server ∧ r.changes.ch.numMask ≥ x.s.maxbans ∧
      (x.s.client x.source).mine = true
  · rw [if_pos full] at added
    cases added
  rw [if_neg full] at added
  cases pretty : prettyMask r.maskPos raw with
  | none =>
    simp only [pretty] at added
    cases added
  | some text =>
    simp only [pretty] at added
    rw [if_pos mine] at added
    split_ifs at added
    · cases added
    obtain ⟨-, rfl⟩ := Prod.mk.inj (Option.some.inj (Option.some.inj added))
    have short := (collapse_sublist text).length_le
    have clean : '\x00' ∉ collapse text :=
      fun inside => prettyMask_clean pretty clean ((collapse_sublist text).mem inside)
    have fits := (prettyMask_fits pretty).2
    have written := Arena.holds_write (Arena.write '\x00' cells r.maskPos text) r.maskPos clean
    unfold Handed.Right Handed.Before prettyPtr nextPos
    simp only [pretty, State.addIdCells, if_neg full, if_pos mine, prettyCells]
    refine ⟨⟨collapse text, rfl, by omega, written, fun _ => written⟩, ?_⟩
    intro p text' place given_
    cases place
    cases given_
    simp only [Option.map_some, Option.getD_some]
    omega

/-- All that is handed on for one letter. -/
theorem handOn_right {type : MaskType} {dir : Dir} (mine : x.mine = true) (given_ : x.parv[r.parn]? = some raw)
    (clean : '\x00' ∉ raw) (used : r.maskPos ≤ maskCosts params) :
    (∀ i, i < r.maskPos → (x.handOn type dir raw r cells (params ++ [raw])).2 i = cells i) ∧
      ∀ h ∈ (x.handOn type dir raw r cells (params ++ [raw])).1,
        h.Right x.parv (x.handOn type dir raw r cells (params ++ [raw])).2 ∧ h.Before (nextPos r.maskPos raw) ∧
          h.params = params ++ [raw] := by
  have front : ∀ i, i < r.maskPos → prettyCells cells r.maskPos raw i = cells i :=
    fun i inside => prettyCells_of_lt cells raw inside
  -- the mask is handed on once more as it was typed
  have param (receiver : Receiver) : Handed.Right x.parv (prettyCells cells r.maskPos raw)
      ⟨receiver, .del, .param r.parn, some (cutSpace raw), prettyCells cells r.maskPos raw, params ++ [raw]⟩ ∧
      Handed.Before ⟨receiver, .del, .param r.parn, some (cutSpace raw), prettyCells cells r.maskPos raw,
        params ++ [raw]⟩ (nextPos r.maskPos raw) :=
    ⟨⟨rfl, raw, given_, rfl⟩, fun p text place => by cases place⟩
  cases dir with
  | query => exact ⟨fun _ _ => rfl, fun h inside => by cases inside⟩
  | add =>
    refine ⟨fun i inside => ?_, fun h inside => ?_⟩
    · exact (addIdCells_of_lt _ _ _ _ _ inside).trans (front i inside)
    · obtain rfl | logged := List.mem_cons.mp inside
      · have right := pretty_right (x := x) cells clean used .addId .add
          (x.handOn type .add raw r cells (params ++ [raw])).2 (fun h => by cases h)
        exact ⟨right.1, right.2, rfl⟩
      · split at logged
        · next ch mask added =>
          split at logged
          · obtain rfl := List.mem_singleton.mp logged
            have right := added_right cells params clean mine added
            exact ⟨right.1, right.2, rfl⟩
          · cases logged
        · cases logged
  | del =>
    have right (receiver : Receiver) := pretty_right (x := x) cells clean used receiver .del
      (prettyCells cells r.maskPos raw) (fun _ => rfl)
    refine ⟨front, fun h inside => ?_⟩
    obtain rfl | rest := List.mem_cons.mp inside
    · exact ⟨(right .delId).1, (right .delId).2, rfl⟩
    · split at rest
      · dsimp only at rest
        split at rest
        · obtain rfl := List.mem_singleton.mp rest
          exact ⟨(right .changeLog).1, (right .changeLog).2, rfl⟩
        · cases rest
      · obtain rfl | rest := List.mem_cons.mp rest
        · exact ⟨(param .delId).1, (param .delId).2, rfl⟩
        · split at rest
          · dsimp only at rest
            split at rest
            · obtain rfl := List.mem_singleton.mp rest
              exact ⟨(param .changeLog).1, (param .changeLog).2, rfl⟩
            · cases rest
          · cases rest

end

/-! ### The whole command -/

/-- What holds while the loop goes on, behind so many letters. -/
structure MaskRun.Going (x : ModeContext) (read : ℕ) (m : MaskRun) (r : ModeRun) : Prop where
  start : 1 ≤ r.parn
  taken : m.params.Sublist ((x.parv.drop 1).take (r.parn - 1))
  count : m.params.length ≤ read
  used : r.maskPos ≤ maskCosts m.params
  before : ∀ h ∈ m.handed, h.Before r.maskPos

/-- What holds behind so many letters. -/
structure MaskRun.Kept (x : ModeContext) (read : ℕ) (m : MaskRun) : Prop where
  right : ∀ h ∈ m.handed, h.Right x.parv m.cells
  params : ∀ h ∈ m.handed, h.params.Sublist (x.parv.drop 1) ∧ h.params.length ≤ read
  going : ∀ r, m.run = some r → m.Going x read r

section

variable {x : ModeContext} {n : ℕ} {m : MaskRun}

theorem nextPos_le {r : ModeRun} {raw : List Char} {params : List (List Char)}
    (used : r.maskPos ≤ maskCosts params) : nextPos r.maskPos raw ≤ maskCosts (params ++ [raw]) := by
  unfold nextPos
  simp only [maskCosts, List.map_append, List.sum_append, List.map_singleton, List.sum_singleton] at used ⊢
  cases pretty : prettyMask r.maskPos raw with
  | none =>
    simp only [Option.map_none, Option.getD_none]
    omega
  | some mask =>
    have fits := (prettyMask_fits pretty).1
    simp only [Option.map_some, Option.getD_some]
    omega

/-- A letter without a mask. -/
theorem MaskRun.Kept.steady {run : Option ModeRun} (kept : m.Kept x n) {r : ModeRun} (going : m.run = some r)
    (steady : ∀ r', run = some r' → Steady r r') : MaskRun.Kept x (n + 1) { m with run := run } where
  right := kept.right
  params := fun h inside => ⟨(kept.params h inside).1, Nat.le_succ_of_le (kept.params h inside).2⟩
  going := by
    intro r' done
    have going := kept.going r going
    have steady := steady r' done
    refine ⟨going.start.trans steady.parn, ?_, Nat.le_succ_of_le going.count, ?_, ?_⟩
    · exact going.taken.trans (List.take_sublist_take_left (Nat.sub_le_sub_right steady.parn 1))
    · exact steady.maskPos.symm ▸ going.used
    · exact steady.maskPos.symm ▸ going.before

/-- A letter with a mask. -/
theorem MaskRun.Kept.masked {type : MaskType} {dir : Dir} {raw : List Char} {run : Option ModeRun}
    (mine : x.mine = true) (clean : ∀ param ∈ x.parv, '\x00' ∉ param) (kept : m.Kept x n) {r : ModeRun}
    (going : m.run = some r) (given_ : x.parv[r.parn]? = some raw)
    (done : ∀ r', run = some r' → r'.parn = r.parn + 1 ∧ r'.maskPos = nextPos r.maskPos raw) :
    MaskRun.Kept x (n + 1) ⟨run, (x.handOn type dir raw r m.cells (m.params ++ [raw])).2, m.params ++ [raw],
      m.handed ++ (x.handOn type dir raw r m.cells (m.params ++ [raw])).1⟩ := by
  have going := kept.going r going
  obtain ⟨front, handed⟩ := handOn_right m.cells mine given_
    (clean raw (List.mem_of_getElem? given_)) going.used
  have behind : r.maskPos ≤ nextPos r.maskPos raw := Nat.le_add_right _ _
  have taken : (m.params ++ [raw]).Sublist ((x.parv.drop 1).take (r.parn + 1 - 1)) := by
    have place : (x.parv.drop 1)[r.parn - 1]? = some raw := by
      rw [List.getElem?_drop, Nat.add_sub_cancel' going.start]
      exact given_
    have next : r.parn + 1 - 1 = (r.parn - 1) + 1 := by
      have start := going.start
      omega
    rw [next, List.take_add_one, place]
    exact going.taken.append (List.Sublist.refl _)
  have count : (m.params ++ [raw]).length ≤ n + 1 := by
    simpa using going.count
  refine ⟨fun h inside => ?_, fun h inside => ?_, fun r' run' => ?_⟩
  · obtain old | new := List.mem_append.mp inside
    · exact (kept.right h old).write (going.before h old) front
    · exact (handed h new).1
  · obtain old | new := List.mem_append.mp inside
    · exact ⟨(kept.params h old).1, Nat.le_succ_of_le (kept.params h old).2⟩
    · rw [(handed h new).2.2]
      exact ⟨taken.trans (List.take_sublist _ _), count⟩
  · obtain ⟨parn, maskPos⟩ := done r' run'
    refine ⟨?_, ?_, count, ?_, fun h inside => ?_⟩
    · rw [parn]
      exact Nat.le_succ_of_le going.start
    · rw [parn]
      exact taken
    · rw [maskPos]
      exact nextPos_le going.used
    · rw [maskPos]
      obtain old | new := List.mem_append.mp inside
      · exact (going.before h old).mono behind
      · exact (handed h new).2.1

theorem MaskRun.letter_quiet {dir : Dir} {c : Char} {r : ModeRun} (going : m.run = some r)
    (quiet : maskType c = none ∨ x.maskParam dir r = none) :
    m.letter x dir c = { m with run := modeTable x dir c r } := by
  unfold MaskRun.letter
  rw [going]
  obtain other | missing := quiet
  · simp only [other]
  · simp only [missing]
    cases maskType c <;> rfl

theorem MaskRun.Kept.letter (mine : x.mine = true) (client : (x.s.client x.clientP).status ≠ .server)
    (clean : ∀ param ∈ x.parv, '\x00' ∉ param) (dir : Dir) (c : Char) (kept : m.Kept x n) :
    (m.letter x dir c).Kept x (n + 1) := by
  cases run : m.run with
  | none =>
    have stopped : m.letter x dir c = m := by
      unfold MaskRun.letter
      rw [run]
    rw [stopped]
    refine ⟨kept.right, fun h inside => ?_, fun r going => ?_⟩
    · exact ⟨(kept.params h inside).1, Nat.le_succ_of_le (kept.params h inside).2⟩
    · rw [run] at going
      cases going
  | some r =>
    cases list : maskType c with
    | none =>
      rw [letter_quiet run (.inl list)]
      exact kept.steady run fun r' done => steady_modeTable list done
    | some type =>
      obtain ⟨rfl, table⟩ := @modeTable_mask x dir c r type list
      cases taken : x.maskParam dir r with
      | none =>
        rw [letter_quiet run (.inr taken)]
        refine kept.steady run fun r' done => ?_
        rw [table] at done
        obtain ⟨-, steady⟩ | ⟨raw, taken', -⟩ := chmMask_cases client done
        · exact steady
        · rw [taken] at taken'
          cases taken'
      | some raw =>
        have given_ : x.parv[r.parn]? = some raw := by
          unfold ModeContext.maskParam at taken
          split_ifs at taken
          exact taken
        have done : ∀ r', modeTable x dir type.letter r = some r' →
            r'.parn = r.parn + 1 ∧ r'.maskPos = nextPos r.maskPos raw := by
          intro r' done
          rw [table] at done
          obtain ⟨taken', -⟩ | ⟨raw', taken', parn, maskPos⟩ := chmMask_cases client done
          · rw [taken] at taken'
            cases taken'
          · obtain rfl := Option.some.inj (taken.symm.trans taken')
            exact ⟨parn, maskPos⟩
        unfold MaskRun.letter
        simp only [run, list, taken]
        exact kept.masked mine clean run given_ done

theorem MaskRun.Kept.read (mine : x.mine = true) (client : (x.s.client x.clientP).status ≠ .server)
    (clean : ∀ param ∈ x.parv, '\x00' ∉ param) (letters : List Char) (dir : Dir) (kept : m.Kept x n) :
    (MaskRun.read x letters dir m).Kept x (n + letters.length) := by
  induction letters generalizing dir m n with
  | nil => exact kept
  | cons c letters ih =>
    rw [List.length_cons, Nat.add_comm letters.length, ← Nat.add_assoc, MaskRun.read]
    split
    · refine ih (dir.read c) ⟨kept.right, fun h inside => ?_, fun r going => ?_⟩
      · exact ⟨(kept.params h inside).1, Nat.le_succ_of_le (kept.params h inside).2⟩
      · have going := kept.going r going
        exact ⟨going.start, going.taken, Nat.le_succ_of_le going.count, going.used, going.before⟩
    · exact ih dir (kept.letter mine client clean dir c)

end

/-- A command cannot hand on NULL before its fourth mask, unless its line is too long. -/
theorem four_masks {m : ModeCommand} {chname : List Char} {params : List (List Char)} (named : chname ≠ [])
    (line : m.lineLength chname ≤ 510) (taken : params.Sublist (m.parv.drop 1))
    (count : params.length ≤ (m.parv.headD []).length) (full : bufSize < maskCosts params) : 4 ≤ params.length := by
  have cost : maskCosts params + params.length ≤ (params.map fun param => 1 + max 1 param.length).sum +
      5 * params.length := by
    clear taken count full
    induction params with
    | nil => simp [maskCosts]
    | cons param params ih =>
      simp only [maskCosts, maskCost, List.map_cons, List.sum_cons, List.length_cons] at ih ⊢
      omega
  have taken : (params.map fun param => 1 + max 1 param.length).sum ≤
      ((m.parv.drop 1).map fun param => 1 + max 1 param.length).sum :=
    (taken.map _).sum_le_sum fun _ _ => Nat.zero_le _
  have chname := List.length_pos_iff.mpr named
  unfold ModeCommand.lineLength at line
  unfold bufSize at full
  cases parv : m.parv with
  | nil =>
    simp only [parv, List.drop_nil, List.map_nil, List.sum_nil] at taken
    simp only [parv, List.headD_nil, List.length_nil, Nat.le_zero] at count
    omega
  | cons letters rest =>
    simp only [parv, List.drop_one, List.tail_cons] at taken
    simp only [parv, List.headD_cons] at count
    simp only [parv, List.map_cons, List.sum_cons] at line
    omega

/-- What is handed on while a MODE of a local client is served. The masks in `mask_buf` are strings that end there, and
those on the list of changes are still there when these are sent; the parameter itself is handed on only to be taken
off a list. NULL there is only when `mask_buf` is full, and not before the fourth mask. -/
theorem masks_intact (s : State) (m : ModeCommand) (chname : List Char) (cells : ℕ → Char)
    (mine : (s.client m.source).mine = true) (direct : m.clientP = m.source)
    (clean : ∀ param ∈ m.parv, '\x00' ∉ param) (named : chname ≠ []) (line : m.lineLength chname ≤ 510) :
    ∀ h ∈ (m.maskRun s cells).handed,
      h.Right m.parv (m.maskRun s cells).cells ∧ (h.mask = .null → 4 ≤ h.params.length) := by
  have client : ((m.context s).s.client (m.context s).clientP).status ≠ .server := by
    change (s.client m.clientP).status ≠ .server
    rw [Client.mine, Bool.and_eq_true, beq_iff_eq] at mine
    rw [direct, mine.2]
    decide
  have start : MaskRun.Kept (m.context s) 0 ⟨some (m.start s), cells, [], []⟩ := by
    refine ⟨fun h inside => (List.not_mem_nil inside).elim, fun h inside => (List.not_mem_nil inside).elim, ?_⟩
    rintro r ⟨⟩
    exact ⟨Nat.le_refl 1, List.nil_sublist _, Nat.le_refl 0, Nat.zero_le _, fun h inside => (List.not_mem_nil inside).elim⟩
  have kept := start.read (show (m.context s).mine = true from mine) client clean (m.parv.headD []) .add
  intro h inside
  have right := kept.right h inside
  refine ⟨right, fun null => ?_⟩
  unfold Handed.Right at right
  rw [null] at right
  have count := (kept.params h inside).2
  rw [Nat.zero_add] at count
  exact four_masks named line (kept.params h inside).1 count right

/-- A channel with a ban that a server has set as it is, and an op who is local. -/
def opped : State :=
  { smallNetwork with
    channel := fun chptr =>
      { smallNetwork.channel chptr with
        chname := ['#', 'a']
        members := fun r => if r = .chanop then [3] else []
        banlist := [⟨['x'], ['s'], 0⟩]
        numMask := 1
        chname_len := hashA_length }
    globalChannelList := [0] }

/-- `MODE #a -b x`. -/
def unban : ModeCommand := ⟨3, 3, 0, [['-', 'b'], ['x']]⟩

/-- `MODE #a bbbb a a a xxx...`, in 509 characters. -/
def crowded : ModeCommand :=
  ⟨3, 3, 0, [['b', 'b', 'b', 'b'], ['a'], ['a'], ['a'], List.replicate 490 'x']⟩

/-- The parameter is taken off the list, and a fourth mask is NULL. -/
theorem masks_outside :
    (¬∀ (s : State) (m : ModeCommand) (chname : List Char) (cells : ℕ → Char),
      (s.client m.source).mine = true → m.clientP = m.source → (∀ param ∈ m.parv, '\x00' ∉ param) →
      chname ≠ [] → m.lineLength chname ≤ 510 →
        ∀ h ∈ (m.maskRun s cells).handed, h.InBuffer (m.maskRun s cells).cells) ∧
    crowded.lineLength ['#', 'a'] = 509 ∧
      ((crowded.maskRun opped fun _ => ' ').handed.any fun h => decide (h.mask = .null)) = true := by
  refine ⟨fun always => ?_, by decide +kernel, by decide +kernel⟩
  have inside := always opped unban ['#', 'a'] (fun _ => ' ') (by decide) rfl (by decide) (by decide) (by decide)
  have param : ((unban.maskRun opped fun _ => ' ').handed.any fun h => decide (h.mask = .param 1)) = true := by
    decide +kernel
  obtain ⟨h, handed, raw⟩ := List.any_eq_true.mp param
  obtain ⟨p, text, place, -⟩ := inside h handed
  rw [of_decide_eq_true raw] at place
  cases place

theorem masks_intact_unban : (unban.maskRun opped fun _ => ' ').handed ≠ [] ∧
    ∀ h ∈ (unban.maskRun opped fun _ => ' ').handed,
      h.Right unban.parv (unban.maskRun opped fun _ => ' ').cells ∧ (h.mask = .null → 4 ≤ h.params.length) := by
  have some_ : (unban.maskRun opped fun _ => ' ').handed.isEmpty = false := by decide +kernel
  refine ⟨fun empty => ?_, masks_intact opped unban ['#', 'a'] (fun _ => ' ') (by decide) rfl (by decide) (by decide)
    (by decide)⟩
  rw [empty] at some_
  cases some_

end Ircd.Chan
