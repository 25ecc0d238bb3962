import Ircd.Ban.Pairing

/-!
# Timed bans end on time

What a query has found it finds again while its record stays in the table, because records that are
added later do not beat it.
-/
namespace Ircd.Ban

open Hostmask

section Runs

variable {wildMatch : List Char → List Char → Bool}

/-! ### What a query has found -/

/-- What the table of the later state holds was there before, or has been added since. -/
def State.Later (s s' : State) : Prop := s.made ≤ s'.made ∧ s.table.Later s.made s'.table

theorem State.Later.refl (s : State) : s.Later s := ⟨Nat.le_refl _, fun _ holds => Or.inl holds⟩

theorem State.Later.trans {s s' s'' : State} (first : s.Later s') (second : s'.Later s'') :
    s.Later s'' := by
  refine ⟨first.1.trans second.1, fun arec holds => ?_⟩
  rcases second.2 arec holds with before | new
  · exact first.2 arec before
  · exact Or.inr (first.1.trans new)

private theorem later_enter (s : State) (e : Entry) : s.Later (s.enter e) := by
  refine ⟨Nat.le_succ _, fun arec holds => ?_⟩
  rcases (holds_add ..).mp holds with rfl | holds
  · exact Or.inr (Nat.le_refl _)
  · exact Or.inl holds

private theorem later_foldl_enter (entries : List Entry) (s : State) :
    s.Later (entries.foldl State.enter s) := by
  induction entries generalizing s with
  | nil => exact State.Later.refl s
  | cons e entries ih => exact (later_enter s e).trans (ih _)

private theorem holds_of_deleteAll (due : List Conf) {t : Table} {arec : AddressRec}
    (holds : (deleteAll t due).Holds arec) : t.Holds arec := by
  induction due generalizing t with
  | nil => exact holds
  | cons conf due ih => exact holds_of_delete (ih holds)

private theorem later_rehash (s : State) (files : Files) : s.Later (rehash s files) := by
  refine State.Later.trans ?_ (later_foldl_enter files.entries _)
  exact ⟨Nat.le_refl _, fun arec holds => Or.inl ((holds_clear arec).mp holds).1⟩

theorem later_step (s : State) (now : ℤ) (event : Event) : s.Later (step wildMatch s now event) := by
  cases event with
  | kline user host tklineTime =>
    simp only [step, kline]
    split_ifs
    · exact State.Later.refl s
    · exact later_enter s _
    · exact later_enter s _
  | gline user host => exact later_enter s _
  | unkline user host files =>
    simp only [step, moUnkline]
    cases found : removeTklineMatch s host user with
    | some s' =>
      obtain ⟨conf, -, rfl⟩ := Option.map_eq_some_iff.mp found
      exact ⟨Nat.le_refl _, fun arec holds => Or.inl (holds_of_deleteAll [conf] holds)⟩
    | none =>
      cases files with
      | none => exact State.Later.refl s
      | some files => exact later_rehash s files
  | ungline user host =>
    simp only [step, moUngline]
    cases found : removeGlineMatch s user host with
    | some s' =>
      obtain ⟨conf, -, rfl⟩ := Option.map_eq_some_iff.mp found
      exact ⟨Nat.le_refl _, fun arec holds => Or.inl holds⟩
    | none => exact State.Later.refl s
  | rehash files => exact later_rehash s files
  | cleanupTklines => exact ⟨Nat.le_refl _, fun arec holds => Or.inl (holds_of_deleteAll _ holds)⟩
  | cleanupGlines => exact ⟨Nat.le_refl _, fun arec holds => Or.inl holds⟩

private theorem run_append (past events : List (ℤ × Event)) :
    run wildMatch (past ++ events) =
      events.foldl (fun s event => step wildMatch s event.1 event.2) (run wildMatch past) :=
  List.foldl_append

theorem run_later {earlier past : List (ℤ × Event)} (within : earlier <+: past) :
    (run wildMatch earlier).Later (run wildMatch past) := by
  obtain ⟨events, rfl⟩ := within
  rw [run_append]
  generalize run wildMatch earlier = s
  induction events generalizing s with
  | nil => exact State.Later.refl s
  | cons event events ih => exact (later_step s event.1 event.2).trans (ih _)

/-- The list and the table are in step after every run. -/
theorem run_sound (past : List (ℤ × Event)) (few : (run wildMatch past).made < 2 ^ 32) :
    (run wildMatch past).Sound := by
  induction past using List.reverseRecOn with
  | nil => exact start_sound
  | append_singleton past event ih =>
    rw [run_append] at few ⊢
    apply (ih _).step event.1 event.2 few
    exact (later_step (run wildMatch past) event.1 event.2).1.trans_lt few

end Runs

/-! ### Expiry on time -/

section OnTime

variable (wildMatch : List Char → List Char → Bool) (past : List (ℤ × Event)) (t : ℤ)

/-- Both expiry events have just run. -/
def Expired : Prop :=
  ∃ front, past = front ++ [(t, .cleanupTklines), (t, .cleanupGlines)] ∨
    past = front ++ [(t, .cleanupGlines), (t, .cleanupTklines)]

/-- At some time in the run a search has answered with the ban. -/
def WasFound (b : TimedBan) : Prop :=
  ∃ earlier, earlier <+: past ∧
    ∃ q, findConfByAddress wildMatch (run wildMatch earlier).table q = some b.aconf

/-- No search answers with a ban whose time is over. A ban that is to last longer, and has not been
removed by command, still answers every query that it has answered before. -/
def OnTime : Prop :=
  (∀ b ∈ (run wildMatch past).timedBans, b.hold ≤ t →
    ∀ q, findConfByAddress wildMatch (run wildMatch past).table q ≠ some b.aconf) ∧
  ∀ b ∈ (run wildMatch past).timedBans, t < b.hold → b.aconf ∉ (run wildMatch past).removed →
    ∀ earlier, earlier <+: past → ∀ q,
      findConfByAddress wildMatch (run wildMatch earlier).table q = some b.aconf →
      findConfByAddress wildMatch (run wildMatch past).table q = some b.aconf

/-- A rehash has come after the end of a G-line, and none before. An expiry event has not met a K-line
with the clock ahead. -/
def TimedBan.Timely (b : TimedBan) (s : State) (t : ℤ) : Prop :=
  if b.gline then b.rehashes < s.rehashes ↔ b.hold ≤ t
  else ∀ t' ∈ s.expiries.drop b.expiries, b.hold ≤ t' → b.hold ≤ t

instance (b : TimedBan) (s : State) (t : ℤ) : Decidable (b.Timely s t) :=
  inferInstanceAs (Decidable (if b.gline then b.rehashes < s.rehashes ↔ b.hold ≤ t
    else ∀ t' ∈ s.expiries.drop b.expiries, b.hold ≤ t' → b.hold ≤ t))

variable {wildMatch past t}

/-- The last expiry event comes after every ban. -/
private theorem Expired.mem_expiries (expired : Expired past t) (few : (run wildMatch past).made < 2 ^ 32)
    {b : TimedBan} (member : b ∈ (run wildMatch past).timedBans) :
    t ∈ (run wildMatch past).expiries.drop b.expiries := by
  obtain ⟨front, rfl | rfl⟩ := expired <;>
  · rw [run_append] at few member ⊢
    have counted := ((run_sound front few).known b member).2.2
    simp only [List.foldl_cons, List.foldl_nil, step, expireTklines, expireGlines]
    rw [List.drop_append_of_le_length counted]
    exact List.mem_append_right _ (List.mem_singleton.mpr rfl)

/-- Timed bans end on time, and only then, when those that a search has found are timely: fewer than
2^32 records have been added. -/
theorem onTime_iff (expired : Expired past t) (few : (run wildMatch past).made < 2 ^ 32) :
    OnTime wildMatch past t ↔
      ∀ b ∈ (run wildMatch past).timedBans, b.aconf ∉ (run wildMatch past).removed →
        WasFound wildMatch past b → b.Timely (run wildMatch past) t := by
  have sound := run_sound past few
  have standing_of_find : ∀ b ∈ (run wildMatch past).timedBans, ∀ q,
      findConfByAddress wildMatch (run wildMatch past).table q = some b.aconf →
      b.Standing (run wildMatch past) := fun b member q found =>
    (sound.inTable b member).mp (sound.numbered.holds_of_find found)
  -- a ban that stands answers as before
  have still : ∀ b ∈ (run wildMatch past).timedBans, b.Standing (run wildMatch past) →
      ∀ earlier, earlier <+: past → ∀ q,
        findConfByAddress wildMatch (run wildMatch earlier).table q = some b.aconf →
        findConfByAddress wildMatch (run wildMatch past).table q = some b.aconf := by
    intro b member stands earlier within q found
    have later : (run wildMatch earlier).Later (run wildMatch past) := run_later within
    exact (run_sound earlier (later.1.trans_lt few)).numbered.find_later sound.numbered later.2 found
      ((sound.inTable b member).mpr stands)
  constructor
  · rintro ⟨ended, kept⟩ b member unremoved ⟨earlier, within, q, found⟩
    have stands_of_later : t < b.hold → b.Standing (run wildMatch past) := fun later =>
      standing_of_find b member q (kept b member later unremoved earlier within q found)
    cases kind : b.gline with
    | true =>
      have upto := (sound.known b member).2.1
      simp only [TimedBan.Timely, TimedBan.Standing, kind, if_true] at stands_of_later ⊢
      constructor
      · intro rehashed
        exact not_lt.mp fun later => rehashed.ne (stands_of_later later)
      · intro due
        refine lt_of_le_of_ne upto fun same => ended b member due q ?_
        apply still b member _ earlier within q found
        simpa only [TimedBan.Standing, kind, if_true] using same
    | false =>
      simp only [TimedBan.Timely, TimedBan.Standing, kind, Bool.false_eq_true, if_false] at stands_of_later ⊢
      intro t' among due
      exact not_lt.mp fun later => absurd ((stands_of_later later).2 t' among) (not_lt.mpr due)
  · intro timely
    constructor
    · intro b member due q found
      have stands := standing_of_find b member q found
      have unremoved : b.aconf ∉ (run wildMatch past).removed := by
        intro removed
        obtain ⟨b', member', same, kline⟩ := sound.commanded _ removed
        obtain rfl := sound.apart b' member' b member same
        simp only [TimedBan.Standing, kline, Bool.false_eq_true, if_false] at stands
        exact stands.1 removed
      have time := timely b member unremoved ⟨past, List.prefix_rfl, q, found⟩
      cases kind : b.gline with
      | true =>
        simp only [TimedBan.Timely, TimedBan.Standing, kind, if_true] at time stands
        exact absurd stands (time.mpr due).ne
      | false =>
        simp only [TimedBan.Standing, kind, Bool.false_eq_true, if_false] at stands
        exact absurd (stands.2 t (expired.mem_expiries few member)) (not_lt.mpr due)
    · intro b member later unremoved earlier within q found
      apply still b member _ earlier within q found
      have time := timely b member unremoved ⟨earlier, within, q, found⟩
      cases kind : b.gline with
      | true =>
        have upto := (sound.known b member).2.1
        simp only [TimedBan.Timely, TimedBan.Standing, kind, if_true] at time ⊢
        exact upto.antisymm (not_lt.mp fun rehashed => absurd (time.mp rehashed) (not_le.mpr later))
      | false =>
        simp only [TimedBan.Timely, TimedBan.Standing, kind, Bool.false_eq_true, if_false] at time ⊢
        exact ⟨unremoved, fun t' among => not_le.mp fun due =>
          absurd (time t' among due) (not_le.mpr later)⟩

/-- A K-line of one minute next to a G-line. -/
theorem onTime_iff_minute :
    OnTime globMatch
      [(0, .kline ['u'] ['a', '.', 'o', 'r', 'g'] 60), (0, .gline ['v'] ['b', '.', 'o', 'r', 'g']),
        (60, .cleanupTklines), (60, .cleanupGlines)] 60 := by
  refine (onTime_iff ?_ (by decide +kernel)).mpr ?_
  · exact ⟨[(0, .kline ['u'] ['a', '.', 'o', 'r', 'g'] 60), (0, .gline ['v'] ['b', '.', 'o', 'r', 'g'])],
      Or.inl rfl⟩
  · have timely : ∀ b ∈ (run globMatch
        [(0, .kline ['u'] ['a', '.', 'o', 'r', 'g'] 60), (0, .gline ['v'] ['b', '.', 'o', 'r', 'g']),
          (60, .cleanupTklines), (60, .cleanupGlines)]).timedBans,
        b.Timely (run globMatch
          [(0, .kline ['u'] ['a', '.', 'o', 'r', 'g'] 60), (0, .gline ['v'] ['b', '.', 'o', 'r', 'g']),
            (60, .cleanupTklines), (60, .cleanupGlines)]) 60 := by
      decide +kernel
    exact fun b member _ _ => timely b member

/-- A G-line is found when its twelve hours are over, and after a rehash it is not found before. -/
theorem gline_not_onTime :
    ¬OnTime globMatch [(0, .gline ['v'] ['b', '.', 'o', 'r', 'g']), (43200, .cleanupTklines),
        (43200, .cleanupGlines)] 43200 ∧
      ¬OnTime globMatch [(0, .gline ['v'] ['b', '.', 'o', 'r', 'g']), (1, .rehash ⟨true, 43200, []⟩),
        (2, .cleanupTklines), (2, .cleanupGlines)] 2 := by
  constructor
  · rintro ⟨ended, -⟩
    exact ended ⟨⟨0, ['v'], ['b', '.', 'o', 'r', 'g'], 43200⟩, true, 0, 0⟩ (by decide +kernel) (by decide)
      ⟨some ['b', '.', 'o', 'r', 'g'], none, confKill, 0, some ['v']⟩ (by decide +kernel)
  · rintro ⟨-, kept⟩
    have found := kept ⟨⟨0, ['v'], ['b', '.', 'o', 'r', 'g'], 43200⟩, true, 0, 0⟩ (by decide +kernel)
      (by decide) (by decide +kernel) [(0, .gline ['v'] ['b', '.', 'o', 'r', 'g'])] ⟨_, rfl⟩
      ⟨some ['b', '.', 'o', 'r', 'g'], none, confKill, 0, some ['v']⟩ (by decide +kernel)
    revert found
    decide +kernel

end OnTime

end Ircd.Ban
