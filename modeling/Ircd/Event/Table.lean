import Mathlib.Data.List.Basic
import Mathlib.Data.List.Lemmas
import Mathlib.Data.Int.Order.Basic
import Mathlib.Tactic.Common

/-!
# The event table

`event.c`: a table of timed events and, next to it, the earliest time at which one of them is due.
`event_time_min` is -1 while that time is not known.
-/
namespace Ircd.Event

def maxEvents : ℕ := 50

/-- `struct ev_entry`. `next` is never used. -/
structure Entry where
  func : ℕ
  arg : ℕ
  name : Option String
  frequency : Int
  due : Int
  active : Bool
  deriving Repr, DecidableEq

/-- The variables of `event.c`, and `CurrentTime`. The table is the part of `event_table` below
`event_count`. -/
structure State where
  table : List Entry
  eventTimeMin : Int
  lastEventRan : Option String
  currentTime : Int
  fits : table.length ≤ maxEvents

def State.start (now : Int) : State := ⟨[], -1, none, now, Nat.zero_le _⟩

/-- The times at which the active events are due, in the order of the table. -/
def dues (table : List Entry) : List Int := (table.filter (·.active)).map (·.due)

/-! ### Adding and deleting -/

/-- The first inactive index, or the next index. -/
def freeSlot (table : List Entry) : ℕ := table.findIdx (fun entry => !entry.active)

theorem State.fits_set (s : State) (i : ℕ) (entry : Entry) : (s.table.set i entry).length ≤ maxEvents :=
  List.length_set.trans_le s.fits

theorem State.fits_append {s : State} (room : s.table.length < maxEvents) (entry : Entry) :
    (s.table ++ [entry]).length ≤ maxEvents := by
  rw [List.length_append]
  exact room

/-- `none` when the table is full: the entry is then written behind its end. -/
def eventAdd (s : State) (name : String) (func arg : ℕ) (wait : Int) : Option State :=
  let entry : Entry := ⟨func, arg, some name, wait, s.currentTime + wait, true⟩
  let i := freeSlot s.table
  let least :=
    if s.currentTime + wait < s.eventTimeMin ∨ s.eventTimeMin = -1 then s.currentTime + wait else s.eventTimeMin
  if i < s.table.length then
    some { s with table := s.table.set i entry, eventTimeMin := least, fits := s.fits_set i entry }
  else if room : s.table.length < maxEvents then
    some { s with table := s.table ++ [entry], eventTimeMin := least, fits := State.fits_append room entry }
  else none

/-- `random` is what the call of `random()` returns. -/
def deltaIsh (delta : Int) (random : ℕ) : Int :=
  if 3 ≤ delta then
    let twoThird := (2 * delta) / 3
    twoThird + (((random % 1000 : ℕ) : Int) * twoThird) / 1000
  else delta

def eventAddIsh (s : State) (name : String) (func arg : ℕ) (delta : Int) (random : ℕ) : Option State :=
  eventAdd s name func arg (deltaIsh delta random)

def eventFind (table : List Entry) (func arg : ℕ) : Option ℕ :=
  table.findIdx? (fun entry => entry.func == func && entry.arg == arg && entry.active)

def Entry.delete (entry : Entry) : Entry :=
  { entry with name := none, func := 0, arg := 0, active := false }

def eventDelete (s : State) (func arg : ℕ) : State :=
  match eventFind s.table func arg with
  | none => s
  | some i => { s with table := s.table.modify i Entry.delete, fits := by simp [s.fits] }

/-! ### Running -/

/-- What the handler of an event may do to the table. -/
inductive Call where
  | add (name : String) (func arg : ℕ) (wait : Int)
  | addIsh (name : String) (func arg : ℕ) (delta : Int) (random : ℕ)
  | delete (func arg : ℕ)

def State.call (s : State) : Call → Option State
  | .add name func arg wait => eventAdd s name func arg wait
  | .addIsh name func arg delta random => eventAddIsh s name func arg delta random
  | .delete func arg => some (eventDelete s func arg)

def State.calls (s : State) (calls : List Call) : Option State :=
  calls.foldlM State.call s

/-- The handler of event `i` has returned. -/
def State.ran (s : State) (i : ℕ) : State :=
  { s with
    table := s.table.modify i (fun entry => { entry with due := s.currentTime + entry.frequency })
    eventTimeMin := -1
    fits := by simp [s.fits] }

/-- The loop of `eventRun` from index `i`, with `left` slots of the array ahead. The handler of event `i` makes
the calls `handler i`. The loop also returns which events it has run. -/
def runFrom (handler : ℕ → List Call) : ℕ → ℕ → State → Option (State × List ℕ)
  | 0, _, s => some (s, [])
  | left + 1, i, s =>
    match s.table[i]? with
    | none => some (s, [])
    | some entry =>
      if entry.active ∧ entry.due ≤ s.currentTime then do
        let s' ← State.calls { s with lastEventRan := entry.name } (handler i)
        let (s'', runs) ← runFrom handler left (i + 1) (s'.ran i)
        pure (s'', i :: runs)
      else runFrom handler left (i + 1) s

def eventRun (s : State) (handler : ℕ → List Call) : Option (State × List ℕ) :=
  runFrom handler maxEvents 0 s

/-! ### The next time -/

/-- The loop that computes `event_time_min`. -/
def earliest (table : List Entry) (least : Int) : Int :=
  table.foldl (fun least entry =>
    if entry.active ∧ (entry.due < least ∨ least = -1) then entry.due else least) least

def eventNextTime (s : State) : Int × State :=
  if s.table.length = 0 then (s.currentTime + 1, s)
  else
    let least := if s.eventTimeMin = -1 then earliest s.table (-1) else s.eventTimeMin
    (least, { s with eventTimeMin := least })

def Entry.setBack (bySecs : Int) (entry : Entry) : Entry :=
  { entry with due := if bySecs < entry.due then entry.due - bySecs else 0 }

def setBackEvents (s : State) (bySecs : Int) : State :=
  { s with table := s.table.map (Entry.setBack bySecs), fits := by simp [s.fits] }

/-! ### Runs -/

inductive Op where
  | call (call : Call)
  | run (handler : ℕ → List Call)
  | nextTime
  | setBack (bySecs : Int)
  | clock (now : Int)

def State.step (s : State) : Op → Option State
  | .call call => s.call call
  | .run handler => (eventRun s handler).map Prod.fst
  | .nextTime => some (eventNextTime s).2
  | .setBack bySecs => some (setBackEvents s bySecs)
  | .clock now => some { s with currentTime := now }

def State.steps (s : State) (ops : List Op) : Option State :=
  ops.foldlM State.step s

/-- One round of the main loop: events are run when `eventNextTime` says that one is due. -/
def State.round (s : State) (handler : ℕ → List Call) : Option (State × List ℕ) :=
  let (delay, s') := eventNextTime s
  if delay ≤ s'.currentTime then eventRun s' handler else some (s', [])

/-! ### What the operations leave alone -/

theorem mem_dues {table : List Entry} {due : Int} :
    due ∈ dues table ↔ ∃ entry ∈ table, entry.active = true ∧ entry.due = due := by
  simp [dues, and_assoc]

/-- A free slot inside the table is an inactive entry. -/
theorem freeSlot_split {table : List Entry} (inside : freeSlot table < table.length) :
    ∃ pre entry post, table = pre ++ entry :: post ∧ freeSlot table = pre.length ∧ entry.active = false := by
  have inactive : (!table[freeSlot table].active) = true := List.findIdx_getElem (w := inside)
  refine ⟨table.take (freeSlot table), table[freeSlot table], table.drop (freeSlot table + 1), ?_, ?_, ?_⟩
  · simp
  · simp only [List.length_take]
    omega
  · simpa using inactive

/-- What `eventAdd` does to the times: the new one is put among them. -/
theorem eventAdd_dues {s s' : State} {name : String} {func arg : ℕ} {wait : Int}
    (added : eventAdd s name func arg wait = some s') :
    s'.currentTime = s.currentTime ∧
      s'.eventTimeMin = (if s.currentTime + wait < s.eventTimeMin ∨ s.eventTimeMin = -1 then s.currentTime + wait
        else s.eventTimeMin) ∧
      ∃ before after, dues s.table = before ++ after ∧
        dues s'.table = before ++ (s.currentTime + wait) :: after := by
  simp only [eventAdd] at added
  split at added
  · next inside =>
    obtain ⟨pre, entry, post, table, slot, inactive⟩ := freeSlot_split inside
    obtain rfl := (Option.some.inj added).symm
    refine ⟨rfl, rfl, dues pre, dues post, ?_, ?_⟩
    · rw [table]
      simp [dues, inactive]
    · simp only [slot]
      rw [table]
      simp [dues]
  · split at added
    · obtain rfl := (Option.some.inj added).symm
      refine ⟨rfl, rfl, dues s.table, [], by simp, by simp [dues]⟩
    · cases added

/-- An active entry stays where it is. -/
theorem eventAdd_keeps {s s' : State} {name : String} {func arg : ℕ} {wait : Int}
    (added : eventAdd s name func arg wait = some s') {i : ℕ} {entry : Entry} (at_ : s.table[i]? = some entry)
    (active : entry.active = true) : s'.table[i]? = some entry := by
  simp only [eventAdd] at added
  split at added
  · next inside =>
    obtain rfl := (Option.some.inj added).symm
    have inactive : (!s.table[freeSlot s.table].active) = true := List.findIdx_getElem (w := inside)
    have other : freeSlot s.table ≠ i := by
      rintro rfl
      rw [List.getElem?_eq_getElem inside, Option.some.injEq] at at_
      simp [at_, active] at inactive
    simpa [List.getElem?_set_ne other] using at_
  · split at added
    · obtain rfl := (Option.some.inj added).symm
      have inside := (List.getElem?_eq_some_iff.mp at_).1
      simpa [List.getElem?_append_left inside] using at_
    · cases added

theorem eventDelete_currentTime (s : State) (func arg : ℕ) : (eventDelete s func arg).currentTime = s.currentTime := by
  unfold eventDelete
  split <;> rfl

theorem eventDelete_eventTimeMin (s : State) (func arg : ℕ) :
    (eventDelete s func arg).eventTimeMin = s.eventTimeMin := by
  unfold eventDelete
  split <;> rfl

/-- `eventDelete` leaves every other entry where it is. -/
theorem eventDelete_keeps (s : State) {func arg i : ℕ} {entry : Entry} (at_ : s.table[i]? = some entry)
    (other : ¬(entry.func = func ∧ entry.arg = arg)) : (eventDelete s func arg).table[i]? = some entry := by
  unfold eventDelete
  split
  · exact at_
  · next j found =>
    simp only
    obtain ⟨inside, isIt, _⟩ := List.findIdx?_eq_some_iff_getElem.mp found
    have ne : j ≠ i := by
      rintro rfl
      rw [List.getElem?_eq_getElem inside, Option.some.injEq] at at_
      simp only [at_, Bool.and_eq_true, beq_iff_eq] at isIt
      exact other isIt.1
    simp [ne, at_]

theorem eventDelete_dues (s : State) (func arg : ℕ) :
    ∀ due ∈ dues (eventDelete s func arg).table, due ∈ dues s.table := by
  intro due member
  obtain ⟨entry, isIn, active, rfl⟩ := mem_dues.mp member
  unfold eventDelete at isIn
  split at isIn
  · exact mem_dues.mpr ⟨entry, isIn, active, rfl⟩
  · simp only [List.mem_iff_getElem?] at isIn
    obtain ⟨k, isIn⟩ := isIn
    rw [List.getElem?_modify] at isIn
    obtain ⟨entry', isIn', rfl⟩ := Option.map_eq_some_iff.mp isIn
    split at active
    · simp [Entry.delete] at active
    · next ne => exact mem_dues.mpr ⟨entry', List.mem_of_getElem? isIn', active, by simp [ne]⟩

/-- A call of a handler leaves the other active events where they are. -/
theorem State.call_keeps {s s' : State} {call : Call} (called : s.call call = some s') {i : ℕ} {entry : Entry}
    (at_ : s.table[i]? = some entry) (active : entry.active = true) (spared : call ≠ .delete entry.func entry.arg) :
    s'.table[i]? = some entry ∧ s'.currentTime = s.currentTime := by
  cases call with
  | add name func arg wait => exact ⟨eventAdd_keeps called at_ active, (eventAdd_dues called).1⟩
  | addIsh name func arg delta random => exact ⟨eventAdd_keeps called at_ active, (eventAdd_dues called).1⟩
  | delete func arg =>
    obtain rfl := (Option.some.inj called).symm
    refine ⟨eventDelete_keeps s at_ ?_, eventDelete_currentTime s func arg⟩
    rintro ⟨rfl, rfl⟩
    exact spared rfl

theorem State.calls_keeps {calls : List Call} {s s' : State} (called : s.calls calls = some s') {i : ℕ}
    {entry : Entry} (at_ : s.table[i]? = some entry) (active : entry.active = true)
    (spared : .delete entry.func entry.arg ∉ calls) :
    s'.table[i]? = some entry ∧ s'.currentTime = s.currentTime := by
  induction calls generalizing s with
  | nil =>
    simp only [State.calls, List.foldlM_nil, Option.pure_def, Option.some.injEq] at called
    exact called ▸ ⟨at_, rfl⟩
  | cons call calls ih =>
    simp only [State.calls, List.foldlM_cons, Option.bind_eq_bind, Option.bind_eq_some_iff] at called
    obtain ⟨s₁, first, rest⟩ := called
    rw [List.mem_cons, not_or] at spared
    obtain ⟨at₁, now₁⟩ := s.call_keeps first at_ active (Ne.symm spared.1)
    obtain ⟨at', now'⟩ := ih rest at₁ spared.2
    exact ⟨at', now'.trans now₁⟩

/-- `eventRun` runs an event that is due, unless the handler of an event before it deletes it. -/
theorem runFrom_runs {handler : ℕ → List Call} {left k : ℕ} {s s' : State} {runs : List ℕ}
    (ran : runFrom handler left k s = some (s', runs)) {i : ℕ} {entry : Entry} (ahead : k ≤ i)
    (inside : i < k + left) (at_ : s.table[i]? = some entry) (active : entry.active = true)
    (isDue : entry.due ≤ s.currentTime)
    (spared : ∀ j, k ≤ j → j < i → .delete entry.func entry.arg ∉ handler j) : i ∈ runs := by
  induction left generalizing k s runs with
  | zero => omega
  | succ left ih =>
    simp only [runFrom] at ran
    by_cases here : k = i
    · subst here
      simp only [at_, active, isDue, and_self, if_true, Option.bind_eq_bind, Option.bind_eq_some_iff,
        Option.pure_def, Option.some.injEq] at ran
      obtain ⟨_, _, _, _, eq⟩ := ran
      cases eq
      exact List.mem_cons_self
    · have later : ∀ j, k + 1 ≤ j → j < i → .delete entry.func entry.arg ∉ handler j :=
        fun j from_ => spared j (by omega)
      split at ran
      · -- the table does not end before `i`
        next off =>
        have := List.getElem?_eq_none_iff.mp off
        have := (List.getElem?_eq_some_iff.mp at_).1
        omega
      · split at ran
        · simp only [Option.bind_eq_bind, Option.bind_eq_some_iff, Option.pure_def, Option.some.injEq] at ran
          obtain ⟨s₁, called, ⟨s₂, runs₂⟩, rest, eq⟩ := ran
          cases eq
          obtain ⟨at₁, now₁⟩ := State.calls_keeps called at_ active (spared k (Nat.le_refl k) (by omega))
          have atRan : (s₁.ran k).table[i]? = some entry := by
            simp [State.ran, here, at₁]
          have dueRan : entry.due ≤ (s₁.ran k).currentTime := by
            simpa [State.ran, now₁] using isDue
          exact List.mem_cons_of_mem _ (ih rest (by omega) (by omega) atRan dueRan later)
        · exact ih ran (by omega) (by omega) at_ isDue later

theorem dues_setBack (table : List Entry) (bySecs : Int) :
    dues (table.map (Entry.setBack bySecs)) =
      (dues table).map (fun due => if bySecs < due then due - bySecs else 0) := by
  induction table with
  | nil => rfl
  | cons entry table ih =>
    simp only [dues, List.map_cons] at ih ⊢
    cases active : entry.active <;> simp [Entry.setBack, active, ih]

end Ircd.Event
