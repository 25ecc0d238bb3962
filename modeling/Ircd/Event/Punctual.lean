import Ircd.Event.Table
import Mathlib.Data.List.Induction

/-!
# No timer is overslept

`eventNextTime` answers from `event_time_min` unless that is -1. The answer is early enough as long as whatever
sets `event_time_min`, or makes an event due earlier, looks at the other events too.
-/
namespace Ircd.Event

/-- `eventNextTime()` is at most the earliest time at which an active event is due. -/
def Timely (s : State) : Prop := ∀ due ∈ dues s.table, (eventNextTime s).1 ≤ due

/-! ### The loop over the table -/

/-- The loop of `eventNextTime`, over the times alone. -/
def least (times : List Int) : Int :=
  times.foldl (fun least due => if due < least ∨ least = -1 then due else least) (-1)

theorem earliest_eq_least (table : List Entry) : earliest table (-1) = least (dues table) := by
  simp only [earliest, least, dues, List.foldl_map, List.foldl_filter]
  congr 1
  funext least entry
  cases entry.active <;> simp

/-- -1 is not taken for a time: an event that is due at -1 is not the earliest one, or there is none after it. -/
def Readable (times : List Int) : Prop :=
  -1 ∈ times → (∃ due ∈ times, due < -1) ∨ times.getLast? = some (-1)

theorem least_append (times : List Int) (due : Int) :
    least (times ++ [due]) = if due < least times ∨ least times = -1 then due else least times := by
  rw [least, List.foldl_append]
  rfl

/-- Without a time before -1, the loop ends with -1 exactly when the last time is -1. -/
theorem least_of_late {times : List Int} (late : ∀ due ∈ times, -1 ≤ due) :
    -1 ≤ least times ∧ (least times = -1 ↔ ∀ due, times.getLast? = some due → due = -1) := by
  induction times using List.reverseRecOn with
  | nil => simp [least]
  | append_singleton times due ih =>
    have atDue := late due (by simp)
    obtain ⟨floor, unset⟩ := ih (fun d member => late d (by simp [member]))
    rw [least_append]
    simp only [List.getLast?_append, List.getLast?_singleton, Option.some_or, Option.some.injEq, forall_eq']
    split <;> omega

/-- A time before -1 is never lost. -/
theorem least_of_early {times : List Int} (early : ∃ due ∈ times, due < -1) :
    least times < -1 ∧ ∀ due ∈ times, least times ≤ due := by
  induction times using List.reverseRecOn with
  | nil => simp at early
  | append_singleton times due ih =>
    rw [least_append]
    by_cases before : ∃ d ∈ times, d < -1
    · obtain ⟨low, all⟩ := ih before
      constructor
      · split <;> omega
      · intro d member
        rcases List.mem_append.mp member with member | member
        · have := all d member
          split <;> omega
        · rw [List.mem_singleton] at member
          split <;> omega
    · have late : ∀ d ∈ times, -1 ≤ d := fun d member => by
        by_contra low
        exact before ⟨d, member, by omega⟩
      have floor := (least_of_late late).1
      obtain ⟨d, member, low⟩ := early
      rcases List.mem_append.mp member with member | member
      · exact absurd (late d member) (by omega)
      · rw [List.mem_singleton] at member
        rw [if_pos (Or.inl (by omega))]
        refine ⟨by omega, fun d' member' => ?_⟩
        rcases List.mem_append.mp member' with member' | member'
        · have := late d' member'
          omega
        · rw [List.mem_singleton] at member'
          omega

/-- Without -1 among the times, the loop finds the earliest. -/
theorem least_of_clear {times : List Int} (late : ∀ due ∈ times, 0 ≤ due) :
    ∀ due ∈ times, least times ≤ due := by
  induction times using List.reverseRecOn with
  | nil => simp
  | append_singleton times due ih =>
    have before := ih (fun d member => late d (by simp [member]))
    have notEarly : ∀ d ∈ times, -1 ≤ d := fun d member => by
      have := late d (by simp [member])
      omega
    obtain ⟨_, unset⟩ := least_of_late notEarly
    rw [least_append]
    intro d member
    rcases List.mem_append.mp member with member | member
    · -- there is a last time before this one, and it is not -1
      have set : least times ≠ -1 := by
        intro isUnset
        have isLast := List.getLast?_eq_some_getLast (List.ne_nil_of_mem member)
        have := unset.mp isUnset _ isLast
        have := late _ (List.mem_append_left _ (List.mem_of_getLast? isLast))
        omega
      have := before d member
      split <;> omega
    · rw [List.mem_singleton] at member
      split <;> omega

theorem least_le_iff (times : List Int) : (∀ due ∈ times, least times ≤ due) ↔ Readable times := by
  by_cases early : ∃ due ∈ times, due < -1
  · simp only [Readable, early, true_or, implies_true, iff_true]
    exact (least_of_early early).2
  · have late : ∀ d ∈ times, -1 ≤ d := fun d member => by
      by_contra low
      exact early ⟨d, member, by omega⟩
    obtain ⟨floor, unset⟩ := least_of_late late
    simp only [Readable, early, false_or]
    constructor
    · intro all isIn
      have isUnset : least times = -1 := by
        have := all (-1) isIn
        omega
      have isLast := List.getLast?_eq_some_getLast (List.ne_nil_of_mem isIn)
      rw [isLast, unset.mp isUnset _ isLast]
    · intro readable
      by_cases isIn : -1 ∈ times
      · have isUnset : least times = -1 := unset.mpr (fun last isLast => by
          rw [readable isIn] at isLast
          exact (Option.some.inj isLast).symm)
        rw [isUnset]
        exact late
      · apply least_of_clear
        intro d member
        have := late d member
        have : d ≠ -1 := fun eq => isIn (eq ▸ member)
        omega

/-! ### What makes a state timely -/

/-- The cached time is early enough, or the table is read. -/
theorem timely_iff (s : State) :
    Timely s ↔ (s.eventTimeMin ≠ -1 → ∀ due ∈ dues s.table, s.eventTimeMin ≤ due) ∧
      (s.eventTimeMin = -1 → Readable (dues s.table)) := by
  by_cases empty : s.table.length = 0
  · have none : dues s.table = [] := by simp [List.eq_nil_of_length_eq_zero empty, dues]
    simp [Timely, Readable, none]
  · by_cases unset : s.eventTimeMin = -1
    · simp [Timely, eventNextTime, empty, unset, earliest_eq_least, ← least_le_iff]
    · simp [Timely, eventNextTime, empty, unset]

/-- Adding an event keeps the answer early enough, unless the other events are not looked at. -/
theorem eventAdd_timely_iff {s s' : State} {name : String} {func arg : ℕ} {wait : Int} (timely : Timely s)
    (added : eventAdd s name func arg wait = some s') (readable : s'.eventTimeMin = -1 → Readable (dues s'.table)) :
    Timely s' ↔ (s.eventTimeMin = -1 →
      s.currentTime + wait = -1 ∨ ∀ due ∈ dues s.table, s.currentTime + wait ≤ due) := by
  obtain ⟨_, cached, before, after, split₁, split₂⟩ := eventAdd_dues added
  have old := ((timely_iff s).mp timely).1
  rw [timely_iff, and_iff_left readable, cached, split₁, split₂]
  rw [split₁] at old
  simp only [List.mem_append, List.mem_cons] at old ⊢
  by_cases unset : s.eventTimeMin = -1
  · simp only [unset, or_true, if_true, forall_const]
    constructor
    · intro all
      by_cases sentinel : s.currentTime + wait = -1
      · exact Or.inl sentinel
      · exact Or.inr fun due member => all sentinel due (by tauto)
    · rintro (sentinel | all) set due (member | rfl | member)
      · exact absurd sentinel set
      · exact absurd sentinel set
      · exact absurd sentinel set
      · exact all due (Or.inl member)
      · exact Int.le_refl _
      · exact all due (Or.inr member)
  · simp only [unset, or_false, false_implies, iff_true]
    intro _ due member
    split
    · rcases member with member | rfl | member
      · have := old unset due (Or.inl member)
        omega
      · exact Int.le_refl _
      · have := old unset due (Or.inr member)
        omega
    · rcases member with member | rfl | member
      · exact old unset due (Or.inl member)
      · omega
      · exact old unset due (Or.inr member)

theorem eventDelete_timely {s : State} (timely : Timely s) (func arg : ℕ)
    (readable : s.eventTimeMin = -1 → Readable (dues (eventDelete s func arg).table)) :
    Timely (eventDelete s func arg) := by
  rw [timely_iff, eventDelete_eventTimeMin]
  exact ⟨fun set due member => ((timely_iff s).mp timely).1 set due (eventDelete_dues s func arg due member),
    readable⟩

/-- When `eventRun` runs an event it leaves the earliest time unset, whatever the handlers do. -/
theorem runFrom_unset {handler : ℕ → List Call} {left i : ℕ} {s s' : State} {runs : List ℕ}
    (ran : runFrom handler left i s = some (s', runs)) : s' = s ∨ s'.eventTimeMin = -1 := by
  induction left generalizing i s runs with
  | zero =>
    simp only [runFrom, Option.some.injEq, Prod.mk.injEq] at ran
    exact Or.inl ran.1.symm
  | succ left ih =>
    simp only [runFrom] at ran
    split at ran
    · simp only [Option.some.injEq, Prod.mk.injEq] at ran
      exact Or.inl ran.1.symm
    · split at ran
      · simp only [Option.bind_eq_bind, Option.bind_eq_some_iff, Option.pure_def, Option.some.injEq] at ran
        obtain ⟨s₁, _, ⟨s₂, runs₂⟩, rest, eq⟩ := ran
        cases eq
        right
        rcases ih rest with rfl | unset
        · rfl
        · exact unset
      · exact ih ran

theorem eventNextTime_timely {s : State} (timely : Timely s) : Timely (eventNextTime s).2 := by
  obtain ⟨set, unset⟩ := (timely_iff s).mp timely
  rw [timely_iff]
  by_cases empty : s.table.length = 0
  · simpa [eventNextTime, empty] using ⟨set, unset⟩
  · by_cases isUnset : s.eventTimeMin = -1
    · have readable := unset isUnset
      have early := (least_le_iff _).mpr readable
      simp only [eventNextTime, empty, isUnset, earliest_eq_least]
      exact ⟨fun _ => early, fun _ => readable⟩
    · simpa [eventNextTime, empty, isUnset] using set isUnset

/-! ### What a run must meet -/

/-- An event is added while `event_time_min` is unset: no other event is due before it. -/
def Heeded (s : State) (wait : Int) : Prop :=
  s.eventTimeMin = -1 → s.currentTime + wait = -1 ∨ ∀ due ∈ dues s.table, s.currentTime + wait ≤ due

/-- What a call must meet: an event that is added does not hide an earlier one, and events that are set back do
not become due before `event_time_min`. -/
def Upheld (s : State) : Op → Prop
  | .call (.add _ _ _ wait) => Heeded s wait
  | .call (.addIsh _ _ _ delta random) => Heeded s (deltaIsh delta random)
  | .setBack bySecs =>
    s.eventTimeMin ≠ -1 → ∀ due ∈ dues s.table, s.eventTimeMin ≤ if bySecs < due then due - bySecs else 0
  | _ => True

theorem step_timely_iff {s s' : State} {op : Op} (timely : Timely s) (step : s.step op = some s')
    (readable : s'.eventTimeMin = -1 → Readable (dues s'.table)) : Timely s' ↔ Upheld s op := by
  cases op with
  | call call =>
    cases call with
    | add name func arg wait => exact eventAdd_timely_iff timely step readable
    | addIsh name func arg delta random => exact eventAdd_timely_iff timely step readable
    | delete func arg =>
      obtain rfl := (Option.some.inj step).symm
      rw [eventDelete_eventTimeMin] at readable
      simpa [Upheld] using eventDelete_timely timely func arg readable
  | run handler =>
    obtain ⟨⟨s₁, runs⟩, ran, rfl⟩ := Option.map_eq_some_iff.mp step
    simp only [Upheld, iff_true]
    rcases runFrom_unset ran with rfl | unset
    · exact timely
    · exact (timely_iff s₁).mpr ⟨fun set => absurd unset set, readable⟩
  | nextTime =>
    obtain rfl := (Option.some.inj step).symm
    simpa [Upheld] using eventNextTime_timely timely
  | setBack bySecs =>
    obtain rfl := (Option.some.inj step).symm
    rw [timely_iff, and_iff_left readable]
    simp only [setBackEvents, dues_setBack, Upheld, List.forall_mem_map]
  | clock now =>
    obtain rfl := (Option.some.inj step).symm
    simpa [Upheld, timely_iff] using (timely_iff s).mp timely

/-- The next time is early enough, and so a round runs every event that is due, unless a handler deletes it. -/
structure Punctual (s : State) : Prop where
  timely : Timely s
  round : ∀ handler s' runs, s.round handler = some (s', runs) → ∀ i entry, s.table[i]? = some entry →
    entry.active = true → entry.due ≤ s.currentTime →
    (∀ j < i, .delete entry.func entry.arg ∉ handler j) → i ∈ runs

theorem Timely.punctual {s : State} (timely : Timely s) : Punctual s := by
  refine ⟨timely, fun handler s' runs round i entry at_ active isDue spared => ?_⟩
  have next := timely entry.due (mem_dues.mpr ⟨entry, List.mem_of_getElem? at_, active, rfl⟩)
  have table : (eventNextTime s).2.table = s.table := by
    unfold eventNextTime
    split <;> rfl
  have now : (eventNextTime s).2.currentTime = s.currentTime := by
    unfold eventNextTime
    split <;> rfl
  have inside := (List.getElem?_eq_some_iff.mp at_).1
  have fits := s.fits
  simp only [State.round] at round
  rw [if_pos (by omega)] at round
  apply runFrom_runs round (Nat.zero_le i) (by omega) (by rw [table]; exact at_) active (by omega)
  exact fun j _ before => spared j before

theorem steps_take_succ {s : State} {ops : List Op} {k : ℕ} {op : Op} (at_ : ops[k]? = some op) :
    s.steps (ops.take (k + 1)) = (s.steps (ops.take k)).bind (fun s' => s'.step op) := by
  rw [List.take_add_one, at_]
  simp [State.steps]

/-- A run never oversleeps a timer exactly when no event is added to a full table, every event that is added while
`event_time_min` is unset is due before the others, no event is set back before `event_time_min`, and no time
is taken for -1. -/
theorem punctual_iff (now : Int) (ops : List Op) :
    (∀ k ≤ ops.length, ∃ s, (State.start now).steps (ops.take k) = some s ∧ Punctual s) ↔
      ∀ k ≤ ops.length, ∃ s, (State.start now).steps (ops.take k) = some s ∧
        (s.eventTimeMin = -1 → Readable (dues s.table)) ∧ ∀ op, ops[k]? = some op → Upheld s op := by
  constructor
  · intro punctual k within
    obtain ⟨s, reached, here⟩ := punctual k within
    refine ⟨s, reached, ((timely_iff s).mp here.timely).2, fun op at_ => ?_⟩
    have inside := (List.getElem?_eq_some_iff.mp at_).1
    obtain ⟨s', reached', after⟩ := punctual (k + 1) inside
    rw [steps_take_succ at_, reached] at reached'
    exact (step_timely_iff here.timely reached' ((timely_iff s').mp after.timely).2).mp after.timely
  · intro upheld
    suffices timely : ∀ k ≤ ops.length, ∃ s, (State.start now).steps (ops.take k) = some s ∧ Timely s by
      intro k within
      obtain ⟨s, reached, here⟩ := timely k within
      exact ⟨s, reached, here.punctual⟩
    intro k
    induction k with
    | zero =>
      intro _
      exact ⟨State.start now, rfl, by simp [Timely, State.start, dues]⟩
    | succ k ih =>
      intro within
      have at_ : ops[k]? = some ops[k] := List.getElem?_eq_getElem within
      obtain ⟨s, reached, timely⟩ := ih (by omega)
      obtain ⟨s₀, reached₀, _, step⟩ := upheld k (by omega)
      obtain ⟨s', reached', readable, _⟩ := upheld (k + 1) within
      obtain rfl : s = s₀ := Option.some.inj (reached.symm.trans reached₀)
      refine ⟨s', reached', ?_⟩
      rw [steps_take_succ at_, reached] at reached'
      exact (step_timely_iff timely reached' readable).mpr (step _ at_)

/-- An event that is due at 1030 is overslept: the clock is set back by 500 seconds, or an event that is due at
2030 is added when `eventRun` has just run. -/
theorem event_overslept :
    (∃ s, (State.start 1000).steps [.call (.add "check_pings" 1 0 30), .setBack 500, .clock 500] = some s ∧
      ¬Timely s) ∧
    (∃ s, (State.start 1000).steps [.call (.add "check_pings" 1 0 30), .clock 1030, .run (fun _ => []),
        .call (.add "cleanup_channels" 2 0 1000)] = some s ∧ ¬Timely s) := by
  constructor
  · exact ⟨_, rfl, fun timely => absurd (timely 530 (by decide)) (by decide)⟩
  · exact ⟨_, rfl, fun timely => absurd (timely 1060 (by decide)) (by decide)⟩

end Ircd.Event
