import Ircd.Lib.LineSplitter

/-!
# Line framing between ircd and iauth

`ReadData` of `iauth/source/sock.c` and `ParseIAuth` of `ircdauth.c` have the same loop. It cuts what is read into
lines and the lines into parameters, and keeps the line that has not ended yet in static variables. iauth serves
several connections with one set of these variables.
-/
namespace Ircd.Iauth

/-- `BUFSIZE`. -/
def bufsize : ℕ := 512

/-- `MAXPARAMS`. -/
def maxparams : ℕ := 15

/-- `IsEol`. -/
def isEol (c : Char) : Bool := c = '\n' || c = '\r'

/-- The static variables: the characters of `spill` before `offset`, and `paramv` and `nextparam` as indexes of
`spill`. -/
structure Framer where
  spill : List Char
  paramv : List ℕ
  nextparam : Option ℕ
deriving DecidableEq

/-- No part of a line is kept. -/
def Framer.empty : Framer := ⟨[], [], none⟩

/-- The string that a parameter points to. -/
def Framer.param (f : Framer) (p : ℕ) : List Char := (f.spill.drop p).takeWhile (· ≠ '\x00')

/-- A character that does not end the line. -/
def Framer.store (f : Framer) (tmp : Char) : Framer :=
  -- make sure not to overflow `spill`
  if bufsize ≤ f.spill.length then f
  else if tmp = ' ' then
    if f.paramv = [] then ⟨f.spill ++ ['\x00'], [0], some (f.spill.length + 1)⟩
    else
      match f.nextparam with
      | none => { f with spill := f.spill ++ [tmp] }
      | some p =>
        if (f.spill ++ ['\x00'])[p]? = some ':' then ⟨f.spill ++ [' '], f.paramv ++ [p], none⟩
        else
          ⟨f.spill ++ ['\x00'], f.paramv ++ [p],
            if maxparams ≤ f.paramv.length + 1 then none else some (f.spill.length + 1)⟩
  else { f with spill := f.spill ++ [tmp] }

/-- The end of the line: the parameters it is processed with. Without parameters it is not processed. -/
def Framer.endLine (f : Framer) : List (List (List Char)) :=
  let paramv := f.paramv ++ f.nextparam.toList
  if paramv = [] then [] else [paramv.map f.param]

/-- The loop, and the lines it processes. -/
def Framer.scan (f : Framer) : List Char → Framer × List (List (List Char))
  | [] => (f, [])
  | [ch] => if isEol ch then (Framer.empty, f.endLine) else (f.store ch, [])
  | ch :: next :: text =>
    if isEol ch then
      -- the second character of a CR LF is skipped
      let later := if isEol next then Framer.empty.scan text else Framer.empty.scan (next :: text)
      (later.1, f.endLine ++ later.2)
    else (f.store ch).scan (next :: text)

/-- A read into `buffer`: `none` if there is nothing to read, and nothing at all when the connection is closed. The
loop stops at a NUL. -/
def Framer.read (f : Framer) : Option (List Char) → Framer × List (List (List Char))
  | none => (f, [])
  | some buffer => f.scan (buffer.takeWhile (· ≠ '\x00'))

/-! ### The two programs -/

/-- iauth: what `ProcessData` has been given, and from which connection. -/
structure Daemon (ι : Type) where
  framer : Framer
  processed : List (ι × List (List Char))

def Daemon.start {ι : Type} : Daemon ι := ⟨Framer.empty, []⟩

/-- `ReadData`, with what it returns. -/
def Daemon.readData {ι : Type} (d : Daemon ι) (sptr : ι) (received : Option (List Char)) : Daemon ι × ℕ :=
  match received with
  | none => (d, 2)
  | some buffer =>
    if buffer = [] then (d, 0)
    else
      let (framer, lines) := d.framer.read (some buffer)
      (⟨framer, d.processed ++ lines.map (sptr, ·)⟩, 1)

/-- The reads that `CheckConnections` makes. -/
def Daemon.run {ι : Type} (reads : List (ι × Option (List Char))) : Daemon ι :=
  reads.foldl (fun d read => (d.readData read.1 read.2).1) Daemon.start

/-- The lines of one connection. -/
def Daemon.processedFrom {ι : Type} [DecidableEq ι] (d : Daemon ι) (sptr : ι) : List (List (List Char)) :=
  (d.processed.filter (·.1 = sptr)).map Prod.snd

/-- ircd: what `ProcessIAuthData` has been given, and whether another read is registered. -/
structure Client where
  framer : Framer
  processed : List (List (List Char))
  selected : Bool

def Client.start : Client := ⟨Framer.empty, [], true⟩

/-- `ParseIAuth`. A read that brings nothing is the last one. -/
def Client.parseIAuth (client : Client) (received : Option (List Char)) : Client :=
  match received with
  | none => { client with selected := false }
  | some buffer =>
    if buffer = [] then { client with selected := false }
    else
      let (framer, lines) := client.framer.read (some buffer)
      ⟨framer, client.processed ++ lines, true⟩

def Client.run (reads : List (Option (List Char))) : Client := reads.foldl Client.parseIAuth Client.start

/-! ### What is asked of them -/

/-- How a line is processed that arrives in one read. -/
def inOneRead (line : List Char) : List (List (List Char)) := (Framer.empty.read (some (line ++ ['\n']))).2

/-- The characters that have been read. -/
def received (reads : List (Option (List Char))) : List Char := reads.flatMap (·.getD [])

/-- The characters that have been read from a connection. -/
def receivedFrom {ι : Type} [DecidableEq ι] (reads : List (ι × Option (List Char))) (sptr : ι) : List Char :=
  received ((reads.filter (·.1 = sptr)).map Prod.snd)

/-- The lines that have ended. -/
def endedLines (text : List Char) : List (List Char) := LineSplitter.endedRuns isEol text

/-- Nothing is read from a connection while a part of a line of another is kept. -/
def InTurn {ι : Type} [DecidableEq ι] (reads : List (ι × Option (List Char))) : Prop :=
  ∀ i sptr buffer, reads[i]? = some (sptr, some buffer) → buffer ≠ [] →
    ∀ other, other ≠ sptr → LineSplitter.openRun isEol (receivedFrom (reads.take i) other) = []

/-! ### One stream -/

/-- One character, without the skipping. -/
def Framer.feed (s : Framer × List (List (List Char))) (ch : Char) : Framer × List (List (List Char)) :=
  if isEol ch then (Framer.empty, s.2 ++ s.1.endLine) else (s.1.store ch, s.2)

/-- Skipping a second end of line changes nothing, since an empty line is not processed. -/
theorem Framer.scan_eq (f : Framer) (text : List Char) (out : List (List (List Char))) :
    text.foldl Framer.feed (f, out) = ((f.scan text).1, out ++ (f.scan text).2) := by
  fun_induction Framer.scan f text generalizing out with
  | case1 f => simp
  | case2 f ch ends => simp [Framer.feed, ends]
  | case3 f ch goesOn => simp [Framer.feed, goesOn]
  | case4 f ch next text ends later skipped unskipped =>
    have first : Framer.feed (f, out) ch = (Framer.empty, out ++ f.endLine) := by simp [Framer.feed, ends]
    rw [List.foldl_cons, first]
    cases ends' : isEol next with
    | true =>
      have blank : Framer.feed (Framer.empty, out ++ f.endLine) next = (Framer.empty, out ++ f.endLine) := by
        have nothing : Framer.empty.endLine = [] := rfl
        simp [Framer.feed, ends', nothing]
      rw [List.foldl_cons, blank, skipped]
      simp [later, ends']
    | false =>
      rw [unskipped]
      simp [later, ends']
  | case5 f ch next text goesOn ih =>
    rw [List.foldl_cons, ← ih]
    simp [Framer.feed, goesOn]

/-- What is kept of a line. -/
def kept (line : List Char) : Framer := line.foldl Framer.store Framer.empty

/-- What the lines of a text are processed with. -/
def processedOf (text : List Char) : List (List (List Char)) := (endedLines text).flatMap fun line => (kept line).endLine

/-- The invariant of the loop: the open line is kept and the ended ones have been processed. -/
theorem feed_all (text : List Char) :
    text.foldl Framer.feed (Framer.empty, []) = (kept (LineSplitter.openRun isEol text), processedOf text) := by
  induction text using List.reverseRecOn with
  | nil => rfl
  | append_singleton text ch ih =>
    rw [List.foldl_append, ih, List.foldl_cons, List.foldl_nil]
    simp only [Framer.feed, processedOf, endedLines, LineSplitter.endedRuns_concat, LineSplitter.openRun_concat]
    cases ends : isEol ch with
    | true =>
      rw [LineSplitter.runs_eq]
      by_cases blank : LineSplitter.openRun isEol text = []
      · have nothing : (kept []).endLine = [] := rfl
        simp [blank, nothing]
        rfl
      · simp [blank]
        rfl
    | false => simp [kept]

theorem scan_kept (text buffer : List Char) :
    ((kept (LineSplitter.openRun isEol text)).scan buffer).1 = kept (LineSplitter.openRun isEol (text ++ buffer)) ∧
      processedOf (text ++ buffer) =
        processedOf text ++ ((kept (LineSplitter.openRun isEol text)).scan buffer).2 := by
  have both := feed_all (text ++ buffer)
  rw [List.foldl_append, feed_all text, Framer.scan_eq] at both
  exact ⟨congrArg Prod.fst both, (congrArg Prod.snd both).symm⟩

theorem Framer.read_eq (f : Framer) {buffer : List Char} (noNul : '\x00' ∉ buffer) :
    f.read (some buffer) = f.scan buffer := by
  have all : buffer.takeWhile (· ≠ '\x00') = buffer := by
    apply List.takeWhile_eq_self_iff.mpr
    intro c inside
    have : c ≠ '\x00' := fun same => noNul (same ▸ inside)
    simpa using this
  simp only [Framer.read, all]

/-- The lines that have ended have no end of line in them, and are not blank. -/
theorem mem_endedLines {text line : List Char} (member : line ∈ endedLines text) :
    line ≠ [] ∧ ∀ c ∈ line, isEol c = false ∧ c ∈ text := by
  constructor
  · intro blank
    subst blank
    simp [endedLines, LineSplitter.endedRuns] at member
  · intro c inside
    refine ⟨?_, LineSplitter.mem_of_mem_runs (LineSplitter.endedRuns_subset_runs text member) inside⟩
    exact LineSplitter.not_sep_of_mem_runs (LineSplitter.endedRuns_subset_runs text member) inside

theorem endedLines_one {line : List Char} (nonblank : line ≠ []) (inner : ∀ c ∈ line, isEol c = false) :
    endedLines (line ++ ['\n']) = [line] := by
  rw [endedLines, LineSplitter.endedRuns_concat, if_pos (by decide)]
  have notBlank : line.isEmpty = false := by simpa using nonblank
  have whole : line.splitOnP isEol = [line] := List.splitOnP_eq_singleton (by simpa using inner)
  simp [LineSplitter.runs, whole, notBlank]

theorem inOneRead_eq {line : List Char} (nonblank : line ≠ []) (inner : ∀ c ∈ line, isEol c = false)
    (noNul : '\x00' ∉ line) : inOneRead line = (kept line).endLine := by
  have noNul' : '\x00' ∉ line ++ ['\n'] := by simp [noNul]
  have one := (scan_kept [] (line ++ ['\n'])).2
  have start : kept (LineSplitter.openRun isEol []) = Framer.empty := rfl
  rw [start, List.nil_append] at one
  rw [inOneRead, Framer.read_eq _ noNul']
  calc (Framer.empty.scan (line ++ ['\n'])).2 = processedOf (line ++ ['\n']) := one.symm
    _ = (kept line).endLine := by simp [processedOf, endedLines_one nonblank inner]

theorem processedOf_eq {text : List Char} (noNul : '\x00' ∉ text) :
    processedOf text = (endedLines text).flatMap inOneRead := by
  apply List.flatMap_congr
  intro line member
  obtain ⟨nonblank, inner⟩ := mem_endedLines member
  exact (inOneRead_eq nonblank (fun c inside => (inner c inside).1) fun nul => noNul (inner _ nul).2).symm

/-! ### Several connections -/

section

variable {ι : Type} [DecidableEq ι]

theorem receivedFrom_concat (reads : List (ι × Option (List Char))) (read : ι × Option (List Char)) (sptr : ι) :
    receivedFrom (reads ++ [read]) sptr =
      receivedFrom reads sptr ++ if read.1 = sptr then read.2.getD [] else [] := by
  by_cases own : read.1 = sptr
  · simp [receivedFrom, received, own]
  · simp [receivedFrom, received, own]

theorem mem_receivedFrom {reads : List (ι × Option (List Char))} {sptr : ι} {c : Char}
    (inside : c ∈ receivedFrom reads sptr) : ∃ buffer, (sptr, some buffer) ∈ reads ∧ c ∈ buffer := by
  obtain ⟨read, member, at_⟩ := List.mem_flatMap.mp inside
  obtain ⟨⟨from_, received⟩, filtered, rfl⟩ := List.mem_map.mp member
  obtain ⟨isRead, own⟩ := List.mem_filter.mp filtered
  obtain rfl : from_ = sptr := by simpa using own
  cases received with
  | none => cases at_
  | some buffer => exact ⟨buffer, isRead, at_⟩

theorem InTurn.init {reads : List (ι × Option (List Char))} {read : ι × Option (List Char)}
    (inTurn : InTurn (reads ++ [read])) : InTurn reads := by
  intro i sptr buffer at_ nonempty other different
  have inside : i < reads.length := (List.getElem?_eq_some_iff.mp at_).1
  have later := inTurn i sptr buffer (by rw [List.getElem?_append_left inside, at_]) nonempty other different
  rwa [List.take_append_of_le_length (Nat.le_of_lt inside)] at later

/-- The static variables hold the open line of the connection whose line is open, and every connection has had its
lines processed. -/
structure Framed (reads : List (ι × Option (List Char))) (d : Daemon ι) : Prop where
  kept : ∀ sptr, (∀ other, other ≠ sptr → LineSplitter.openRun isEol (receivedFrom reads other) = []) →
    d.framer = kept (LineSplitter.openRun isEol (receivedFrom reads sptr))
  processed : ∀ sptr, d.processedFrom sptr = processedOf (receivedFrom reads sptr)

theorem Framed.readData {reads : List (ι × Option (List Char))} {d : Daemon ι} (framed : Framed reads d) {sptr : ι}
    {buffer : List Char} (nonempty : buffer ≠ []) (noNul : '\x00' ∉ buffer)
    (alone : ∀ other, other ≠ sptr → LineSplitter.openRun isEol (receivedFrom reads other) = []) :
    Framed (reads ++ [(sptr, some buffer)]) (d.readData sptr (some buffer)).1 := by
  have own : receivedFrom (reads ++ [(sptr, some buffer)]) sptr = receivedFrom reads sptr ++ buffer := by
    simp [receivedFrom_concat]
  have others : ∀ other, other ≠ sptr →
      receivedFrom (reads ++ [(sptr, some buffer)]) other = receivedFrom reads other := by
    intro other different
    simp [receivedFrom_concat, different.symm]
  obtain ⟨keeps, processes⟩ := scan_kept (receivedFrom reads sptr) buffer
  rw [← framed.kept sptr alone] at keeps processes
  have after : (d.readData sptr (some buffer)).1 =
      ⟨(d.framer.scan buffer).1, d.processed ++ (d.framer.scan buffer).2.map (sptr, ·)⟩ := by
    simp only [Daemon.readData, if_neg nonempty, Framer.read_eq _ noNul]
  rw [after]
  constructor
  · intro only onlyOpen
    by_cases same : only = sptr
    · rw [same, own]
      exact keeps
    · -- the line of `sptr` has ended, so that nothing is kept
      have ended := onlyOpen sptr (Ne.symm same)
      rw [own] at ended
      rw [others only same, alone only same, ← ended]
      exact keeps
  · intro connection
    by_cases same : connection = sptr
    · subst same
      have before := framed.processed connection
      rw [Daemon.processedFrom] at before
      rw [own, processes, Daemon.processedFrom, List.filter_append, List.map_append, before]
      simp [List.filter_map, Function.comp_def]
    · have before := framed.processed connection
      rw [Daemon.processedFrom] at before
      rw [others connection same, Daemon.processedFrom, List.filter_append, List.map_append, before]
      simp [List.filter_map, Function.comp_def, Ne.symm same]

/-- A read that brings nothing. -/
theorem Framed.idle {reads : List (ι × Option (List Char))} {d : Daemon ι} (framed : Framed reads d) {sptr : ι}
    {read : Option (List Char)} (nothing : read.getD [] = []) : Framed (reads ++ [(sptr, read)]) d := by
  have same : ∀ connection, receivedFrom (reads ++ [(sptr, read)]) connection = receivedFrom reads connection := by
    intro connection
    simp [receivedFrom_concat, nothing]
  constructor
  · simp only [same]
    exact framed.kept
  · simp only [same]
    exact framed.processed

theorem Daemon.run_framed (reads : List (ι × Option (List Char))) (inTurn : InTurn reads)
    (noNul : ∀ sptr buffer, (sptr, some buffer) ∈ reads → '\x00' ∉ buffer) : Framed reads (Daemon.run reads) := by
  induction reads using List.reverseRecOn with
  | nil => exact ⟨fun _ _ => rfl, fun _ => rfl⟩
  | append_singleton reads read ih =>
    have framed := ih inTurn.init fun sptr buffer member => noNul sptr buffer (List.mem_append_left _ member)
    have step : Daemon.run (reads ++ [read]) = ((Daemon.run reads).readData read.1 read.2).1 := by
      simp [Daemon.run]
    rw [step]
    obtain ⟨sptr, _ | buffer⟩ := read
    · exact framed.idle rfl
    · by_cases closed : buffer = []
      · subst closed
        exact framed.idle rfl
      · exact framed.readData closed (noNul sptr buffer (by simp))
          (by simpa using inTurn reads.length sptr buffer (by simp) closed)

end

theorem Client.run_framed (reads : List (Option (List Char))) (noNul : ∀ buffer, some buffer ∈ reads → '\x00' ∉ buffer) :
    (Client.run reads).framer = kept (LineSplitter.openRun isEol (received reads)) ∧
      (Client.run reads).processed = processedOf (received reads) := by
  induction reads using List.reverseRecOn with
  | nil => exact ⟨rfl, rfl⟩
  | append_singleton reads read ih =>
    obtain ⟨keeps, processes⟩ := ih fun buffer member => noNul buffer (List.mem_append_left _ member)
    have step : Client.run (reads ++ [read]) = (Client.run reads).parseIAuth read := by simp [Client.run]
    have more : received (reads ++ [read]) = received reads ++ read.getD [] := by simp [received]
    rw [step, more]
    match read with
    | none => simpa [Client.parseIAuth] using ⟨keeps, processes⟩
    | some buffer =>
      by_cases closed : buffer = []
      · simpa [Client.parseIAuth, closed] using ⟨keeps, processes⟩
      · obtain ⟨keeps', processes'⟩ := scan_kept (received reads) buffer
        rw [← keeps] at keeps' processes'
        simp only [Client.parseIAuth, if_neg closed, Framer.read_eq _ (noNul buffer (by simp)), processes]
        exact ⟨keeps', processes'.symm⟩

/-! ### Which lines are processed -/

theorem store_paramv {f : Framer} (room : f.spill.length < bufsize) (tmp : Char) :
    (f.store tmp).spill.length = f.spill.length + 1 ∧
      ((f.store tmp).paramv = [] ↔ f.paramv = [] ∧ tmp ≠ ' ') ∧
      ((f.paramv = [] → f.nextparam = none) → (f.store tmp).paramv = [] → (f.store tmp).nextparam = none) := by
  obtain ⟨spill, paramv, nextparam⟩ := f
  have notFull : ¬bufsize ≤ spill.length := Nat.not_le.mpr room
  simp only [Framer.store, if_neg notFull]
  by_cases space : tmp = ' '
  · by_cases first : paramv = []
    · simp [space, first]
    · cases nextparam with
      | none => simp [space, first]
      | some p =>
        simp only [if_pos space, if_neg first]
        split <;> simp [first, space]
  · simp [space]

/-- The first blank makes the first parameter. -/
theorem kept_paramv {line : List Char} (short : line.length ≤ bufsize) :
    (kept line).spill.length = line.length ∧ ((kept line).paramv = [] ↔ ' ' ∉ line) ∧
      ((kept line).paramv = [] → (kept line).nextparam = none) := by
  induction line using List.reverseRecOn with
  | nil => exact ⟨rfl, by simp [kept, Framer.empty], fun _ => rfl⟩
  | append_singleton line tmp ih =>
    rw [List.length_append, List.length_singleton] at short
    obtain ⟨length, blank, pending⟩ := ih (by omega)
    obtain ⟨length', blank', pending'⟩ := store_paramv (f := kept line) (by omega) tmp
    have step : kept (line ++ [tmp]) = (kept line).store tmp := by simp [kept]
    rw [step, length', blank', blank, length]
    have either : ' ' ∉ line ++ [tmp] ↔ ' ' ∉ line ∧ tmp ≠ ' ' := by
      simp only [List.mem_append, List.mem_singleton, not_or]
      exact and_congr_right fun _ => ne_comm
    exact ⟨by simp, either.symm, fun none_ => pending' pending (blank'.mpr (none_.imp_left blank.mpr))⟩

/-- A line is processed once if it has a blank, and not at all if it is a single word. -/
theorem kept_endLine {line : List Char} (short : line.length < bufsize) :
    (kept line).endLine.length = if ' ' ∈ line then 1 else 0 := by
  obtain ⟨-, blank, pending⟩ := kept_paramv (Nat.le_of_lt short)
  by_cases word : ' ' ∈ line
  · have some_ : (kept line).paramv ≠ [] := fun empty => blank.mp empty word
    simp [Framer.endLine, some_, word]
  · have none_ := blank.mpr word
    simp [Framer.endLine, none_, pending none_, word]

/-- Every connection has its lines processed in order, each as if it had come in one read, in every run in which no
read falls into the line of another connection; and so has ircd, which has one connection. -/
theorem lines_framed {ι : Type} [DecidableEq ι] {reads : List (ι × Option (List Char))}
    (noNul : ∀ sptr buffer, (sptr, some buffer) ∈ reads → '\x00' ∉ buffer) (inTurn : InTurn reads) (sptr : ι)
    {ircdReads : List (Option (List Char))} (ircdNoNul : ∀ buffer, some buffer ∈ ircdReads → '\x00' ∉ buffer) :
    (Daemon.run reads).processedFrom sptr = (endedLines (receivedFrom reads sptr)).flatMap inOneRead ∧
      (Client.run ircdReads).processed = (endedLines (received ircdReads)).flatMap inOneRead := by
  constructor
  · have plain : '\x00' ∉ receivedFrom reads sptr := by
      intro nul
      obtain ⟨buffer, member, inside⟩ := mem_receivedFrom nul
      exact noNul sptr buffer member inside
    rw [(Daemon.run_framed reads inTurn noNul).processed, processedOf_eq plain]
  · have plain : '\x00' ∉ received ircdReads := by
      intro nul
      obtain ⟨read, member, inside⟩ := List.mem_flatMap.mp nul
      cases read with
      | none => cases inside
      | some buffer => exact ircdNoNul buffer member inside
    rw [(Client.run_framed ircdReads ircdNoNul).2, processedOf_eq plain]

/-- Two reads of a line, with the line of another connection behind it. -/
def readsInTurn : List (Bool × Option (List Char)) :=
  [(false, some "A b".toList), (false, some "c :d\r".toList), (true, some "\nE f\n".toList)]

theorem lines_framed_inTurn :
    (Daemon.run readsInTurn).processedFrom false =
        (endedLines (receivedFrom readsInTurn false)).flatMap inOneRead ∧
      (Client.run [some "A b".toList, none]).processed =
        (endedLines (received [some "A b".toList, none])).flatMap inOneRead := by
  apply lines_framed
  · intro sptr buffer member
    simp only [readsInTurn, List.mem_cons, Prod.mk.injEq, Option.some.injEq, List.not_mem_nil, or_false] at member
    rcases member with ⟨-, rfl⟩ | ⟨-, rfl⟩ | ⟨-, rfl⟩ <;> decide
  · intro i sptr buffer at_ _ other different
    match i with
    | 0 => rfl
    | 1 =>
      obtain ⟨rfl, -⟩ : false = sptr ∧ _ := by simpa [readsInTurn] using at_
      obtain rfl : other = true := by simpa using different
      rfl
    | 2 =>
      obtain ⟨rfl, -⟩ : true = sptr ∧ _ := by simpa [readsInTurn] using at_
      obtain rfl : other = false := by simpa using different
      rfl
    | i + 3 => simp [readsInTurn] at at_
  · intro buffer member
    obtain rfl : buffer = "A b".toList := by simpa using member
    decide

/-- The line of the second connection is put behind the part of a line of the first. -/
theorem lines_mixed :
    let reads := [(false, some "A b".toList), (true, some "C d\n".toList)]
    (Daemon.run reads).processedFrom true = [["A".toList, "bC".toList, "d".toList]] ∧
      (Daemon.run reads).processedFrom true ≠ (endedLines (receivedFrom reads true)).flatMap inOneRead := by
  decide

/-- However the input of ircd is cut, a line with a blank is processed once, and a line of one word not at all. -/
theorem Client.run_processed {reads : List (Option (List Char))}
    (noNul : ∀ buffer, some buffer ∈ reads → '\x00' ∉ buffer)
    (short : ∀ line ∈ endedLines (received reads), line.length < bufsize) :
    (Client.run reads).processed.length = (endedLines (received reads)).countP (' ' ∈ ·) := by
  rw [(Client.run_framed reads noNul).2, processedOf]
  generalize endedLines (received reads) = lines at short
  induction lines with
  | nil => rfl
  | cons line lines ih =>
    rw [List.flatMap_cons, List.length_append, kept_endLine (short line (by simp)),
      ih fun other member => short other (by simp [member]), List.countP_cons]
    split <;> simp_all [Nat.add_comm]

theorem Client.run_processed_cut :
    (Client.run [some ['a'], some [' ', 'b', '\n', 'c'], some ['\n']]).processed.length = 1 :=
  Client.run_processed (by simp) (by decide)

end Ircd.Iauth
