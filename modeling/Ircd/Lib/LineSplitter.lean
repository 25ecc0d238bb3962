import Mathlib.Data.List.DropRight

/-!
# Cutting a stream into lines of bounded length

A stream of symbols is cut into its maximal separator-free runs. A *splitter*
reads the stream symbol by symbol and keeps at most `limit` symbols of each run.
A *forgetful* splitter reads the stream in chunks and, whenever a chunk ends while
it is discarding the rest of an overlong run, forgets that it was discarding.

The two agree exactly when no chunk boundary falls behind more than `limit` symbols
of a run that goes on in the next chunk (`chunked_length_eq_iff`).
-/
namespace LineSplitter

variable {α : Type} (eol : α → Bool) (limit : ℕ)

/-! ### The runs of a stream -/

/-- The maximal non-empty separator-free runs, the last one possibly still open. -/
def runs (s : List α) : List (List α) := (s.splitOnP eol).filter (!·.isEmpty)

/-- The runs that a separator has ended. -/
def endedRuns (s : List α) : List (List α) := (s.splitOnP eol).dropLast.filter (!·.isEmpty)

/-- What the stream has of the run that is still open. -/
def openRun (s : List α) : List α := s.rtakeWhile (!eol ·)

variable {eol}

theorem openRun_concat (s : List α) (b : α) :
    openRun eol (s ++ [b]) = if eol b then [] else openRun eol s ++ [b] := by
  unfold openRun
  rw [List.rtakeWhile_concat]
  cases eol b <;> rfl

private theorem splitOnP_concat (s : List α) (b : α) :
    (s ++ [b]).splitOnP eol =
      if eol b then s.splitOnP eol ++ [[]]
      else (s.splitOnP eol).dropLast ++ [(s.splitOnP eol).getLastD [] ++ [b]] := by
  induction s with
  | nil => cases h : eol b <;> simp [List.splitOnP_cons_eq_if_modifyHead, h]
  | cons a s ih =>
    obtain ⟨x, xs, hx⟩ := List.exists_cons_of_ne_nil (List.splitOnP_ne_nil eol s)
    rw [List.cons_append, List.splitOnP_cons_eq_if_modifyHead, ih,
      List.splitOnP_cons_eq_if_modifyHead, hx]
    cases eol a <;> cases eol b <;> cases xs <;> simp

private theorem splitOnP_getLastD (s : List α) :
    (s.splitOnP eol).getLastD [] = openRun eol s := by
  induction s using List.reverseRecOn with
  | nil => rfl
  | append_singleton s b ih =>
    rw [splitOnP_concat, openRun_concat]
    cases eol b
    · simp [← ih]
    · simp

private theorem splitOnP_eq (s : List α) :
    s.splitOnP eol = (s.splitOnP eol).dropLast ++ [openRun eol s] := by
  rw [← splitOnP_getLastD]
  have nonempty := List.splitOnP_ne_nil eol s
  rw [List.getLastD_eq_getLast?, List.getLast?_eq_getLast_of_ne_nil nonempty]
  exact (List.dropLast_append_getLast nonempty).symm

/-- The runs are the ended ones and the open one, if it has begun. -/
theorem runs_eq (s : List α) :
    runs eol s = endedRuns eol s ++ [openRun eol s].filter (!·.isEmpty) := by
  unfold runs endedRuns
  rw [← List.filter_append, ← splitOnP_eq]

theorem endedRuns_concat (s : List α) (b : α) :
    endedRuns eol (s ++ [b]) = if eol b then runs eol s else endedRuns eol s := by
  unfold endedRuns runs
  rw [splitOnP_concat]
  cases eol b <;> simp

theorem endedRuns_subset_runs (s : List α) : endedRuns eol s ⊆ runs eol s := by
  rw [runs_eq]
  exact List.subset_append_left _ _

theorem mem_of_mem_runs {s run : List α} (member : run ∈ runs eol s) {b : α} (inside : b ∈ run) :
    b ∈ s := by
  induction s using List.reverseRecOn with
  | nil => cases member
  | append_singleton s x ih =>
    have earlier : run ∈ runs eol s → b ∈ s ++ [x] := fun old => List.mem_append_left _ (ih old)
    rw [runs_eq, endedRuns_concat] at member
    rcases List.mem_append.mp member with ended | opening
    · split at ended
      · exact earlier ended
      · exact earlier (endedRuns_subset_runs s ended)
    · obtain rfl : run = openRun eol (s ++ [x]) := List.mem_singleton.mp (List.mem_filter.mp opening).1
      exact (List.rtakeWhile_suffix _ _).mem inside

theorem not_sep_of_mem_runs {s run : List α} (member : run ∈ runs eol s) {b : α} (inside : b ∈ run) :
    eol b = false := by
  induction s using List.reverseRecOn with
  | nil => cases member
  | append_singleton s x ih =>
    rw [runs_eq, endedRuns_concat] at member
    rcases List.mem_append.mp member with ended | opening
    · split at ended
      · exact ih ended
      · exact ih (endedRuns_subset_runs s ended)
    · obtain rfl : run = openRun eol (s ++ [x]) := List.mem_singleton.mp (List.mem_filter.mp opening).1
      simpa using List.mem_rtakeWhile_imp inside

/-- A new run begins with the first symbol after a separator. -/
theorem runs_length_concat (s : List α) (b : α) :
    (runs eol (s ++ [b])).length =
      (runs eol s).length + if eol b = false ∧ openRun eol s = [] then 1 else 0 := by
  rw [runs_eq, endedRuns_concat, openRun_concat]
  cases hb : eol b
  · rw [runs_eq s]
    cases ho : openRun eol s <;> simp
  · simp

/-! ### Splitters -/

/-- What a splitter does with the symbols of the current run. -/
inductive Mode (α : Type) where
  | idle
  | filling (kept : List α)
  | discarding

structure State (α : Type) where
  closed : List (List α)
  mode : Mode α

namespace State

def start : State α := ⟨[], .idle⟩

/-- The lines so far, with the one that is being filled. -/
def all (σ : State α) : List (List α) :=
  match σ.mode with
  | .filling kept => σ.closed ++ [kept]
  | _ => σ.closed

/-- The chunk has ended: a run that was being discarded is forgotten. -/
def cut (σ : State α) : State α :=
  match σ.mode with
  | .discarding => ⟨σ.closed, .idle⟩
  | _ => σ

@[simp] theorem cut_all (σ : State α) : σ.cut.all = σ.all := by
  obtain ⟨closed, mode⟩ := σ
  cases mode <;> rfl

end State

variable (eol)

/-- One symbol. -/
def feed (σ : State α) (b : α) : State α :=
  match eol b, σ.mode with
  | true, .filling kept => ⟨σ.closed ++ [kept], .idle⟩
  | true, _ => ⟨σ.closed, .idle⟩
  | false, .idle => ⟨σ.closed, .filling [b]⟩
  | false, .filling kept =>
    if kept.length < limit then ⟨σ.closed, .filling (kept ++ [b])⟩
    else ⟨σ.closed ++ [kept], .discarding⟩
  | false, .discarding => σ

/-- One chunk, read by a forgetful splitter. -/
def feedChunk (σ : State α) (chunk : List α) : State α := (chunk.foldl (feed eol limit) σ).cut

/-- A forgetful splitter on a stream that arrives in chunks. -/
def chunked (chunks : List (List α)) : State α := chunks.foldl (feedChunk eol limit) .start

/-- A splitter that sees the whole stream at once. -/
def whole (s : List α) : State α := s.foldl (feed eol limit) .start

theorem chunked_concat (chunks : List (List α)) (chunk : List α) :
    chunked eol limit (chunks ++ [chunk]) = feedChunk eol limit (chunked eol limit chunks) chunk := by
  simp only [chunked, List.foldl_append, List.foldl_cons, List.foldl_nil]

/-- The splitter that sees the whole stream, read off its runs. -/
theorem whole_eq (positive : 0 < limit) (s : List α) :
    whole eol limit s =
      if openRun eol s = [] then ⟨(runs eol s).map (List.take limit), .idle⟩
      else if (openRun eol s).length ≤ limit then
        ⟨(endedRuns eol s).map (List.take limit), .filling (openRun eol s)⟩
      else ⟨(runs eol s).map (List.take limit), .discarding⟩ := by
  induction s using List.reverseRecOn with
  | nil => rfl
  | append_singleton s b ih =>
    rw [whole, List.foldl_append, List.foldl_cons, List.foldl_nil, ← whole, ih, openRun_concat,
      endedRuns_concat, runs_eq (s ++ [b]), endedRuns_concat, openRun_concat]
    cases separator : eol b
    · by_cases fresh : openRun eol s = []
      · simp [feed, separator, fresh, runs_eq s, Nat.succ_le_of_lt positive]
      · by_cases short : (openRun eol s).length ≤ limit
        · by_cases room : (openRun eol s).length < limit
          · simp [feed, separator, fresh, short, room, Nat.succ_le_of_lt room]
          · have full : (openRun eol s).length = limit := by omega
            simp [feed, separator, fresh, full]
        · have long : ¬ (openRun eol s).length + 1 ≤ limit := by omega
          have kept : limit - (openRun eol s).length = 0 := by omega
          simp [feed, separator, fresh, short, long, runs_eq s, List.take_append, kept]
    · by_cases fresh : openRun eol s = []
      · simp [feed, separator, fresh]
      · by_cases short : (openRun eol s).length ≤ limit
        · simp [feed, separator, fresh, short, runs_eq s, List.take_of_length_le short]
        · simp [feed, separator, fresh, short]

/-- The splitter that sees everything keeps the first `limit` symbols of each run. -/
theorem whole_all (positive : 0 < limit) (s : List α) :
    (whole eol limit s).all = (runs eol s).map (List.take limit) := by
  rw [whole_eq eol limit positive]
  by_cases fresh : openRun eol s = []
  · simp only [if_pos fresh, State.all]
  · by_cases short : (openRun eol s).length ≤ limit
    · simp [State.all, fresh, short, runs_eq s, List.take_of_length_le short]
    · simp only [if_neg fresh, if_neg short, State.all]

/-! ### Feeding a run and the separators behind it -/

/-- The state with `kept` of the current run in hand. -/
def opened (closed : List (List α)) (kept : List α) : State α :=
  if kept = [] then ⟨closed, .idle⟩ else ⟨closed, .filling kept⟩

@[simp] theorem opened_nil (closed : List (List α)) : opened closed [] = ⟨closed, .idle⟩ := rfl

@[simp] theorem idle_cut (closed : List (List α)) :
    (⟨closed, .idle⟩ : State α).cut = ⟨closed, .idle⟩ := rfl

@[simp] theorem opened_cut (closed : List (List α)) (kept : List α) :
    (opened closed kept).cut = opened closed kept := by
  by_cases fresh : kept = [] <;> simp [opened, fresh, State.cut]

@[simp] theorem opened_closed (closed : List (List α)) (kept : List α) :
    (opened closed kept).closed = closed := by
  by_cases fresh : kept = [] <;> simp [opened, fresh]

@[simp] theorem opened_all (closed : List (List α)) (kept : List α) :
    (opened closed kept).all = closed ++ [kept].filter (!·.isEmpty) := by
  by_cases fresh : kept = [] <;> simp [opened, fresh, State.all]

theorem opened_eq_idle {closed closed' : List (List α)} {kept : List α}
    (equal : opened closed kept = ⟨closed', .idle⟩) : kept = [] ∧ closed = closed' := by
  by_cases fresh : kept = [] <;> simp_all [opened]

private theorem feed_opened (closed : List (List α)) (kept : List α) (b : α)
    (run : eol b = false) (room : kept.length < limit) :
    feed eol limit (opened closed kept) b = opened closed (kept ++ [b]) := by
  by_cases fresh : kept = [] <;> simp [opened, feed, run, fresh, room]

private theorem foldl_feed_discarding (closed : List (List α)) (run : List α)
    (free : ∀ b ∈ run, eol b = false) :
    run.foldl (feed eol limit) ⟨closed, .discarding⟩ = ⟨closed, .discarding⟩ := by
  induction run with
  | nil => rfl
  | cons b rest ih =>
    have same : feed eol limit ⟨closed, .discarding⟩ b = ⟨closed, .discarding⟩ := by
      simp [feed, free b (by simp)]
    rw [List.foldl_cons, same]
    exact ih fun x member => free x (List.mem_cons_of_mem b member)

private theorem foldl_feed_run (closed : List (List α)) (kept run : List α)
    (free : ∀ b ∈ run, eol b = false) (room : kept.length ≤ limit) (positive : 0 < limit) :
    run.foldl (feed eol limit) (opened closed kept) =
      if (kept ++ run).length ≤ limit then opened closed (kept ++ run)
      else ⟨closed ++ [(kept ++ run).take limit], .discarding⟩ := by
  induction run generalizing kept with
  | nil => simp [room]
  | cons b rest ih =>
    have text : eol b = false := free b (by simp)
    have free' : ∀ b ∈ rest, eol b = false := fun x member =>
      free x (List.mem_cons_of_mem b member)
    rw [List.foldl_cons]
    by_cases more : kept.length < limit
    · have longer : (kept ++ [b]).length ≤ limit := by simpa using Nat.succ_le_of_lt more
      rw [feed_opened eol limit closed kept b text more, ih _ free' longer]
      simp
    · have full : kept.length = limit := by omega
      have nonempty : kept ≠ [] := by
        intro empty
        simp [empty] at full
        omega
      have dropped : feed eol limit (opened closed kept) b = ⟨closed ++ [kept], .discarding⟩ := by
        simp [opened, feed, nonempty, text, full]
      have long : ¬ (kept ++ b :: rest).length ≤ limit := by
        simp [full]
      rw [dropped, foldl_feed_discarding eol limit _ rest free', if_neg long, List.take_append,
        List.take_of_length_le room, full, Nat.sub_self, List.take_zero, List.append_nil]

private theorem foldl_feed_eols (σ : State α) (eols : List α) (ended : eols ≠ [])
    (separators : ∀ b ∈ eols, eol b = true) :
    eols.foldl (feed eol limit) σ = ⟨σ.all, .idle⟩ := by
  induction eols generalizing σ with
  | nil => exact absurd rfl ended
  | cons e es ih =>
    have first : feed eol limit σ e = ⟨σ.all, .idle⟩ := by
      obtain ⟨closed, mode⟩ := σ
      cases mode <;> simp [feed, State.all, separators e (by simp)]
    rw [List.foldl_cons, first]
    by_cases last : es = []
    · rw [last]
      rfl
    · exact ih _ last fun x member => separators x (List.mem_cons_of_mem e member)

/-- A run and the separators behind it, then possibly the end of the chunk. -/
theorem foldl_feed_piece (closed : List (List α)) (kept run eols : List α)
    (free : ∀ b ∈ run, eol b = false) (separators : ∀ b ∈ eols, eol b = true)
    (room : kept.length ≤ limit) (positive : 0 < limit) :
    ((run ++ eols).foldl (feed eol limit) (opened closed kept)).cut =
      if eols = [] ∧ (kept ++ run).length ≤ limit then opened closed (kept ++ run)
      else ⟨closed ++ [(kept ++ run).take limit].filter (!·.isEmpty), .idle⟩ := by
  rw [List.foldl_append, foldl_feed_run eol limit closed kept run free room positive]
  by_cases fits : (kept ++ run).length ≤ limit
  · rw [if_pos fits]
    by_cases ended : eols = []
    · rw [ended, List.foldl_nil, opened_cut, if_pos ⟨rfl, fits⟩]
    · rw [foldl_feed_eols eol limit _ eols ended separators, List.take_of_length_le fits,
        opened_all, if_neg fun both => ended both.1]
      rfl
  · have nonempty : (kept ++ run).take limit ≠ [] := by
      intro empty
      rcases List.take_eq_nil_iff.mp empty with zero | nil
      · omega
      · simp [nil] at fits
    have shown : [(kept ++ run).take limit].filter (!·.isEmpty) = [(kept ++ run).take limit] := by
      simpa using nonempty
    rw [if_neg fits, if_neg fun both => fits both.2, shown]
    by_cases ended : eols = []
    · rw [ended]
      rfl
    · rw [foldl_feed_eols eol limit _ eols ended separators]
      rfl

/-- Behind separators there is nothing for the end of the chunk to forget. -/
theorem foldl_feed_cut_of_eols (σ : State α) (run eols : List α) (ended : eols ≠ [])
    (separators : ∀ b ∈ eols, eol b = true) :
    ((run ++ eols).foldl (feed eol limit) σ).cut = (run ++ eols).foldl (feed eol limit) σ := by
  rw [List.foldl_append, foldl_feed_eols eol limit _ eols ended separators]
  rfl

/-! ### Where a chunk boundary shows -/

/-- A chunk boundary behind which an overlong run goes on. -/
def Severs (before after : List α) : Prop :=
  limit < (openRun eol before).length ∧ ∃ b ∈ after.head?, eol b = false

/-- No chunk boundary of the stream severs an overlong run. -/
def Intact (chunks : List (List α)) : Prop :=
  ∀ before after, chunks = before ++ after → ¬ Severs eol limit before.flatten after.flatten

variable {eol limit}

theorem intact_concat (chunks : List (List α)) (chunk : List α) :
    Intact eol limit (chunks ++ [chunk]) ↔
      Intact eol limit chunks ∧ ¬ Severs eol limit chunks.flatten chunk := by
  constructor
  · intro intact
    refine ⟨fun before after split severs => ?_, fun severs => ?_⟩
    · refine intact before (after ++ [chunk]) (by rw [split, List.append_assoc]) ⟨severs.1, ?_⟩
      obtain ⟨b, first, run⟩ := severs.2
      exact ⟨b, by simp_all [List.head?_append], run⟩
    · exact intact chunks [chunk] rfl (by simpa using severs)
  · rintro ⟨intact, last⟩ before after split severs
    rcases List.eq_nil_or_concat after with rfl | ⟨init, final, rfl⟩
    · simp [Severs] at severs
    · rw [List.concat_eq_append, ← List.append_assoc] at split
      obtain ⟨rfl, equal⟩ := List.append_inj' split rfl
      obtain rfl : chunk = final := by simpa using equal
      by_cases empty : init.flatten = []
      · exact last ⟨by simpa [empty] using severs.1, by simpa [empty] using severs.2⟩
      · refine intact before init rfl ⟨severs.1, ?_⟩
        obtain ⟨b, first, run⟩ := severs.2
        obtain ⟨x, xs, hx⟩ := List.exists_cons_of_ne_nil empty
        exact ⟨b, by simp_all, run⟩

/-- A prefix of a stream of short runs has short runs. -/
theorem short_of_append (s t : List α)
    (short : ∀ run ∈ runs eol (s ++ t), run.length ≤ limit) :
    ∀ run ∈ runs eol s, run.length ≤ limit := by
  induction t using List.reverseRecOn with
  | nil => simpa using short
  | append_singleton t b ih =>
    apply ih
    intro run member
    rw [← List.append_assoc, runs_eq, endedRuns_concat, openRun_concat] at short
    cases separator : eol b
    · rw [runs_eq] at member
      rcases List.mem_append.mp member with ended | opening
      · exact short run (by simp [separator, ended])
      · obtain rfl : run = openRun eol (s ++ t) := by simp_all
        have longer := short (openRun eol (s ++ t) ++ [b]) (by simp [separator])
        rw [List.length_append] at longer
        omega
    · exact short run (by simp [separator, member])

theorem intact_of_short (chunks : List (List α))
    (short : ∀ run ∈ runs eol chunks.flatten, run.length ≤ limit) : Intact eol limit chunks := by
  rintro before after rfl ⟨long, -⟩
  rw [List.flatten_append] at short
  have nonempty : openRun eol before.flatten ≠ [] := by
    intro empty
    simp [empty] at long
  have bounded := short_of_append _ _ short (openRun eol before.flatten)
    (by simp [runs_eq, nonempty])
  omega

private theorem foldl_feed_cut (σ : State α) (chunk : List α)
    (resumes : σ.mode = .discarding → ∀ b ∈ chunk.head?, eol b = true) :
    (chunk.foldl (feed eol limit) σ.cut).cut = (chunk.foldl (feed eol limit) σ).cut := by
  obtain ⟨closed, mode⟩ := σ
  cases mode with
  | idle => rfl
  | filling kept => rfl
  | discarding =>
    cases chunk with
    | nil => rfl
    | cons b rest =>
      have separator : eol b = true := resumes rfl b rfl
      simp [State.cut, feed, separator]

/-- As long as no boundary severs a run, chunks do not show. -/
theorem chunked_of_intact (positive : 0 < limit) (chunks : List (List α))
    (intact : Intact eol limit chunks) :
    chunked eol limit chunks = (whole eol limit chunks.flatten).cut := by
  induction chunks using List.reverseRecOn with
  | nil => rfl
  | append_singleton chunks chunk ih =>
    obtain ⟨earlier, last⟩ := (intact_concat chunks chunk).mp intact
    rw [chunked_concat, ih earlier, feedChunk, foldl_feed_cut]
    · simp [whole, List.foldl_append]
    · intro discarding b first
      by_contra run
      refine last ⟨?_, b, first, by simpa using run⟩
      rw [whole_eq eol limit positive] at discarding
      split at discarding
      · cases discarding
      · split at discarding
        · cases discarding
        · omega

/-- A stream of short runs, however it is cut. -/
theorem chunked_of_short (positive : 0 < limit) (chunks : List (List α))
    (short : ∀ run ∈ runs eol chunks.flatten, run.length ≤ limit) :
    chunked eol limit chunks = opened (endedRuns eol chunks.flatten) (openRun eol chunks.flatten) := by
  have kept : ∀ run ∈ endedRuns eol chunks.flatten, run.take limit = run := fun run member =>
    List.take_of_length_le (short run (by simp [runs_eq, member]))
  rw [chunked_of_intact positive chunks (intact_of_short chunks short), whole_eq eol limit positive]
  by_cases fresh : openRun eol chunks.flatten = []
  · rw [if_pos fresh, runs_eq, fresh, opened_nil]
    simp [List.map_congr_left kept]
  · have bounded := short (openRun eol chunks.flatten) (by simp [runs_eq, fresh])
    rw [if_neg fresh, if_pos bounded, List.map_congr_left kept]
    simp [opened, fresh, State.cut]

/-- A splitter that has at least `n` lines more than the stream has runs. -/
private def Ahead (eol : α → Bool) (n : ℕ) (s : List α) (σ : State α) : Prop :=
  (runs eol s).length + n ≤ σ.all.length ∧ (openRun eol s = [] → σ.mode = .idle)

private theorem ahead_feed {n : ℕ} {s : List α} {σ : State α} (ahead : Ahead eol n s σ) (b : α) :
    Ahead eol n (s ++ [b]) (feed eol limit σ b) := by
  obtain ⟨closed, mode⟩ := σ
  obtain ⟨enough, idle⟩ := ahead
  refine ⟨?_, fun ended => ?_⟩
  · rw [runs_length_concat]
    by_cases fresh : openRun eol s = []
    · obtain rfl : mode = .idle := idle fresh
      cases separator : eol b <;> simp_all [feed, State.all]
      omega
    · cases separator : eol b
      · cases mode with
        | idle => simp_all [feed, State.all]; omega
        | filling kept =>
          by_cases room : kept.length < limit <;>
            simpa [feed, State.all, separator, fresh, room] using enough
        | discarding => simp_all [feed, State.all]
      · cases mode <;> simp_all [feed, State.all]
  · rw [openRun_concat] at ended
    cases separator : eol b
    · simp [separator] at ended
    · cases mode <;> simp [feed, separator]

private theorem ahead_feedChunk {n : ℕ} {s : List α} {σ : State α} (ahead : Ahead eol n s σ)
    (chunk : List α) : Ahead eol n (s ++ chunk) (feedChunk eol limit σ chunk) := by
  have fed : Ahead eol n (s ++ chunk) (chunk.foldl (feed eol limit) σ) := by
    induction chunk generalizing s σ with
    | nil => simpa using ahead
    | cons b rest ih => simpa using ih (ahead_feed ahead b)
  refine ⟨by simpa [feedChunk] using fed.1, fun ended => ?_⟩
  have idle := fed.2 ended
  simp [feedChunk, State.cut, idle]

/-- A severed run resurfaces: there is a line more than there are runs. -/
private theorem ahead_of_severed (positive : 0 < limit) (chunks : List (List α))
    (severed : ¬ Intact eol limit chunks) :
    Ahead eol 1 chunks.flatten (chunked eol limit chunks) := by
  induction chunks using List.reverseRecOn with
  | nil =>
    refine absurd (fun before after split severs => ?_) severed
    obtain ⟨rfl, rfl⟩ := List.append_eq_nil_iff.mp split.symm
    simp [Severs] at severs
  | append_singleton chunks chunk ih =>
    rw [chunked_concat, List.flatten_append, List.flatten_singleton]
    by_cases earlier : Intact eol limit chunks
    · have severs : Severs eol limit chunks.flatten chunk := by
        by_contra last
        exact severed ((intact_concat chunks chunk).mpr ⟨earlier, last⟩)
      obtain ⟨long, b, first, run⟩ := severs
      obtain ⟨rest, rfl⟩ := List.head?_eq_some_iff.mp first
      have nonempty : openRun eol chunks.flatten ≠ [] := by
        intro empty
        simp [empty] at long
      rw [chunked_of_intact positive chunks earlier, whole_eq eol limit positive, if_neg nonempty,
        if_neg (by omega)]
      have resurfaced : Ahead eol 1 (chunks.flatten ++ [b])
          ⟨(runs eol chunks.flatten).map (List.take limit), .filling [b]⟩ := by
        refine ⟨?_, fun ended => ?_⟩
        · rw [runs_length_concat]
          simp [run, nonempty, State.all]
        · rw [openRun_concat] at ended
          simp [run] at ended
      have rested : Ahead eol 1 (chunks.flatten ++ [b] ++ rest)
          (feedChunk eol limit _ rest) := ahead_feedChunk resurfaced rest
      simpa [feedChunk, feed, State.cut, run] using rested
    · exact ahead_feedChunk (ih earlier) chunk

/-- Every run becomes one line, and no line is anything else, exactly when no chunk
boundary severs a run. -/
theorem chunked_length_eq_iff (positive : 0 < limit) (chunks : List (List α)) :
    (chunked eol limit chunks).all.length = (runs eol chunks.flatten).length ↔
      Intact eol limit chunks := by
  constructor
  · intro equal
    by_contra severed
    have ahead := (ahead_of_severed positive chunks severed).1
    omega
  · intro intact
    rw [chunked_of_intact positive chunks intact, State.cut_all, whole_all eol limit positive,
      List.length_map]

end LineSplitter
