import Ircd.Linebuf.Lines

/-!
# What the reader of a line buffer gets

Lines within the limit reach the reader whatever the chunks are; readers see C strings,
so a NUL byte in the stream hides the rest of its line. A run beyond the limit is one
line exactly when no chunk boundary severs it.
-/
namespace Ircd.Linebuf

open LineSplitter (runs endedRuns openRun chunked Intact)

/-- The non-empty strings among the lines, each read up to its first NUL. -/
def strings (lines : List BufLine) : List (List UInt8) :=
  (lines.map (cstring ·.buf)).filter (!·.isEmpty)

/-- The non-empty strings a stream has ended so far, when each run is read as a C string. -/
def endedStrings (stream : List UInt8) : List (List UInt8) :=
  ((endedRuns isCrlf stream).map cstring).filter (!·.isEmpty)

@[simp] theorem strings_append (xs ys : List BufLine) :
    strings (xs ++ ys) = strings xs ++ strings ys := by
  simp only [strings, List.map_append, List.filter_append]

private theorem cstring_padded (text : List UInt8) (n : ℕ) :
    cstring (text ++ List.replicate n 0) = cstring text := by
  have nothing : (List.replicate n (0 : UInt8)).takeWhile (· != 0) = [] := by
    cases n <;> rfl
  unfold cstring
  rw [List.takeWhile_append, nothing, List.append_nil]
  split
  · rename_i all
    exact ((List.takeWhile_prefix _).eq_of_length all).symm
  · rfl

private theorem cstring_of_nul (buf : List UInt8) (nul : ∀ b ∈ buf, b = 0) : cstring buf = [] := by
  cases buf with
  | nil => rfl
  | cons b bs => simp [cstring, nul b (by simp)]

private theorem strings_of_carries {texts : List (List UInt8)} {lines : List BufLine}
    (carries : Carries texts lines) :
    strings lines = (texts.map cstring).filter (!·.isEmpty) := by
  induction carries with
  | nil => rfl
  | blank before none nul ih =>
    rw [strings_append, ih]
    simp [strings, cstring_of_nul _ nul]
  | text before some padded fits ih =>
    rw [strings_append, ih, List.map_append, List.filter_append]
    simp [strings, padded, cstring_padded]

/-- A stream without NUL bytes: what is read is what was sent. -/
theorem endedStrings_of_nulFree (stream : List UInt8) (nulFree : ∀ b ∈ stream, b ≠ 0) :
    endedStrings stream = endedRuns isCrlf stream := by
  have free : ∀ run ∈ endedRuns isCrlf stream, ∀ b ∈ run, b ≠ 0 := by
    intro run member b inside
    exact nulFree b (LineSplitter.mem_of_mem_runs (LineSplitter.endedRuns_subset_runs _ member) inside)
  have same : ∀ run ∈ endedRuns isCrlf stream, cstring run = run := by
    intro run member
    exact List.takeWhile_eq_self_iff.mpr fun b inside => by simpa using free run member b inside
  have nonempty : ∀ run ∈ endedRuns isCrlf stream, (!run.isEmpty) = true := by
    intro run member
    exact (List.mem_filter.mp member).2
  unfold endedStrings
  rw [List.map_congr_left same, List.map_id', List.filter_eq_self.mpr nonempty]

/-! ### Draining the queue -/

private theorem chunks_drain (ops : List Op) (n : ℕ) :
    chunks (ops ++ List.replicate n .get) = chunks ops := by
  induction n with
  | zero => simp
  | succ n ih =>
    have none : chunks [.get] = [] := rfl
    rw [List.replicate_succ', ← List.append_assoc, chunks_concat, ih, none, List.append_nil]

/-- Nothing is left that could be handed out. -/
private def Drained (s : Session) : Prop := linebufGet s.bufhead false false = none

private theorem drained_gets (n : ℕ) (s : Session) (short : s.bufhead.list.length ≤ n) :
    Drained ((List.replicate n Op.get).foldl Session.step s) := by
  induction n generalizing s with
  | zero =>
    have empty : s.bufhead.list = [] := List.length_eq_zero_iff.mp (Nat.le_zero.mp short)
    simp [Drained, linebufGet, empty]
  | succ n ih =>
    rw [List.replicate_succ, List.foldl_cons]
    rcases s.step_get with ⟨none, same⟩ | ⟨line, rest, got, next⟩
    · -- once the queue waits it waits for good
      have stays : ∀ m, (List.replicate m Op.get).foldl Session.step s = s := by
        intro m
        induction m with
        | zero => rfl
        | succ m stays => rw [List.replicate_succ, List.foldl_cons, same, stays]
      rw [same, stays]
      exact none
    · rw [next]
      apply ih
      have shorter := linebufGet_length got
      simp only
      omega

private theorem drained_rep {s : Session} {σ : LineSplitter.State UInt8} (drained : Drained s)
    (rep : Rep s.delivered s.bufhead.list σ) : Carries σ.closed s.delivered := by
  obtain ⟨plain, closed, kept, done, tail, rfl, list, free, room, finished, carries, tails⟩ := rep
  cases shape : done with
  | nil =>
    rw [shape, List.append_nil] at carries
    rw [LineSplitter.opened_closed]
    exact carries
  | cons line others =>
    have terminated := finished line (by simp [shape])
    rw [shape, List.cons_append] at list
    simp [Drained, linebufGet, list, terminated] at drained

/-- The strings delivered are at any time the first of the strings ended so far, and all
of them as soon as the queue has been read until it gives nothing more. Each is unaltered
unless the stream has NUL bytes. -/
theorem delivered_eq_endedStrings (ops : List Op)
    (short : ∀ run ∈ runs isCrlf (chunks ops).flatten, run.length ≤ 510) :
    strings (Session.run ops).delivered <+: endedStrings (chunks ops).flatten ∧
      (∀ n, (Session.run ops).bufhead.list.length ≤ n →
        strings (Session.run (ops ++ List.replicate n .get)).delivered =
          endedStrings (chunks ops).flatten) ∧
      ((∀ b ∈ (chunks ops).flatten, b ≠ 0) →
        endedStrings (chunks ops).flatten = endedRuns isCrlf (chunks ops).flatten) := by
  have state : chunked isCrlf lineMax (chunks ops) = _ :=
    LineSplitter.chunked_of_short (by decide) (chunks ops) short
  refine ⟨?_, fun n enough => ?_, endedStrings_of_nulFree _⟩
  · obtain ⟨-, closed, kept, done, tail, reached, -, -, -, -, carries, -⟩ := rep_run ops
    have ended := congrArg LineSplitter.State.closed (state.symm.trans reached)
    rw [LineSplitter.opened_closed, LineSplitter.opened_closed] at ended
    have all := strings_of_carries carries
    rw [strings_append, ← ended] at all
    exact ⟨strings done, all⟩
  · have drained : Drained (Session.run (ops ++ List.replicate n .get)) := by
      rw [Session.run, List.foldl_append]
      exact drained_gets n _ enough
    have rep := rep_run (ops ++ List.replicate n .get)
    rw [chunks_drain, state] at rep
    have carries := drained_rep drained rep
    rw [LineSplitter.opened_closed] at carries
    exact strings_of_carries carries

theorem delivered_eq_endedStrings_split :
    strings (Session.run [.parse [104, 105, 13], .parse [10, 121], .get, .get, .get]).delivered =
      [[104, 105]] := by
  have short : ∀ run ∈ runs isCrlf (chunks [.parse [104, 105, 13], .parse [10, 121]]).flatten,
      run.length ≤ 510 := by decide
  exact (delivered_eq_endedStrings [.parse [104, 105, 13], .parse [10, 121]] short).2.1 3 (by decide)

/-- A NUL byte hides the rest of its line from the reader. -/
theorem nul_truncates_line :
    let ops : List Op := [.parse [97, 0, 98, 10], .get]
    (∀ run ∈ runs isCrlf (chunks ops).flatten, run.length ≤ 510) ∧
      (Session.run ops).bufhead.list = [] ∧
      strings (Session.run ops).delivered ≠ endedRuns isCrlf (chunks ops).flatten := by
  decide

/-! ### Overlong lines -/

/-- What one run contributes: the line with its first 510 bytes. Behind a run within the
limit the buffer may hold NULs in place of CR/LF bytes. -/
def CarriesRun (run : List UInt8) (line : BufLine) : Prop :=
  if lineMax < run.length then line.buf = run.take lineMax
  else ∃ n, line.buf = run ++ List.replicate n 0

/-- Each run, in order, contributes exactly one line, and nothing else gives a line with
any text. -/
def OneLinePerRun (ops : List Op) : Prop :=
  List.Forall₂ CarriesRun (runs isCrlf (chunks ops).flatten)
    ((Session.run ops).lines.filter BufLine.hasText)

private theorem forall₂_of_carries {texts : List (List UInt8)} {lines : List BufLine}
    (carries : Carries texts lines) :
    List.Forall₂ (fun text line => (∃ n, line.buf = text ++ List.replicate n 0) ∧
      line.buf.length ≤ lineMax) texts (lines.filter BufLine.hasText) := by
  induction carries with
  | nil => exact .nil
  | blank before none nul ih => simpa [none] using ih
  | text before some padded fits ih =>
    rw [List.filter_append, List.filter_cons_of_pos some]
    exact List.rel_append ih (.cons ⟨⟨_, padded⟩, fits⟩ .nil)

/-- A line that is still being filled is carried as well. -/
private theorem carries_lines (ops : List Op) :
    Carries (chunked isCrlf lineMax (chunks ops)).all (Session.run ops).lines := by
  obtain ⟨plain, closed, kept, done, tail, reached, list, free, room, finished, carries, tails⟩ :=
    rep_run ops
  rw [reached, Session.lines, list, ← List.append_assoc, LineSplitter.opened_all]
  rcases tails with ⟨rfl, rfl⟩ | ⟨nonempty, line, rfl, opened, buf, some⟩
  · simpa using carries
  · have shown : [kept].filter (!·.isEmpty) = [kept] := by simpa using nonempty
    rw [shown]
    exact .text carries (n := 0) some (by simp [buf]) (by rw [buf]; exact room)

/-- An overlong run is one command exactly when no chunk ends behind more than 510 bytes of
a run that the next chunk goes on with. -/
theorem oneLinePerRun_iff (ops : List Op) :
    OneLinePerRun ops ↔ Intact isCrlf 510 (chunks ops) := by
  have carried := forall₂_of_carries (carries_lines ops)
  have lengths : _ ↔ Intact isCrlf lineMax (chunks ops) :=
    LineSplitter.chunked_length_eq_iff (by decide) (chunks ops)
  constructor
  · intro one
    exact lengths.mp (carried.length_eq.trans one.length_eq.symm)
  · intro intact
    have limit : chunked isCrlf lineMax (chunks ops) = _ :=
      LineSplitter.chunked_of_intact (by decide) (chunks ops) intact
    rw [limit, LineSplitter.State.cut_all,
      LineSplitter.whole_all _ _ (by decide), List.forall₂_map_left_iff] at carried
    refine carried.imp fun run line ⟨⟨n, padded⟩, fits⟩ => ?_
    unfold CarriesRun
    split
    · -- the 510 bytes leave no room for padding
      rename_i long
      have length := congrArg List.length padded
      simp only [List.length_append, List.length_take, List.length_replicate] at length
      have none : n = 0 := by omega
      rw [padded, none, List.replicate_zero, List.append_nil]
    · rename_i short
      rw [padded, List.take_of_length_le (by omega)]
      exact ⟨n, rfl⟩

/-- 511 bytes fill one chunk; the byte behind them comes back as a line of its own. -/
theorem severed_run_resurfaces :
    ¬ OneLinePerRun [.parse (List.replicate 511 97), .parse [98, 10], .get, .get] := by
  intro one
  have equal := one.length_eq
  revert equal
  decide +kernel

end Ircd.Linebuf
