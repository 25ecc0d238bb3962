import Mathlib.Data.List.Basic

/-!
# The relay

`read_data` and `write_net` of `servlink/io.c` pass on what the server sends, and `read_net` and `write_data`
what the network sends. On a link without compression and encryption the two directions do the same.
-/
namespace Ircd.Servlink

/-- `READLEN`. -/
def readlen : ℕ := 16384

/-- One direction: `buf`, `ofs` and `len` of a `struct slink_state`, and whether the callbacks to read and to
write are registered. `assertFailed` tells that an `assert` has failed, and `got` and `put` are the bytes that
have been read and written. -/
structure Way where
  buf : List UInt8
  ofs : ℕ
  len : ℕ
  readCb : Bool
  writeCb : Bool
  assertFailed : Bool
  got : List UInt8
  put : List UInt8

/-- A read to the start of the buffer. -/
def Way.fill (w : Way) (data : List UInt8) : Way :=
  { w with buf := data ++ w.buf.drop data.length, got := w.got ++ data }

/-- The loop of `read_data` and `read_net`. Each round has what the read brings, which is nothing if it is
refused, and how much the write takes. -/
def Way.readLoop (w : Way) : List (List UInt8 × ℕ) → Way
  | [] => w
  | (data, n) :: rounds =>
    let data := data.take readlen
    if data.length = 0 then w
    else
      let blen := data.length
      let w := w.fill data
      let ret := min n blen
      let w := { w with put := w.put ++ w.buf.take ret }
      if ret < blen then { w with writeCb := true, readCb := false, ofs := ret, len := blen - ret }
      else w.readLoop rounds

/-- `read_data` and `read_net`. -/
def Way.read (w : Way) (rounds : List (List UInt8 × ℕ)) : Way :=
  if w.len ≠ 0 then { w with assertFailed := true } else w.readLoop rounds

/-- `write_net` and `write_data`; `n` is how much the write takes, which is nothing if it is refused. -/
def Way.write (w : Way) (n : ℕ) : Way :=
  if w.len = 0 then { w with assertFailed := true }
  else
    let ret := min n w.len
    if ret = 0 then w
    else
      let w := { w with put := w.put ++ (w.buf.drop w.ofs).take ret, len := w.len - ret }
      if w.len = 0 then { w with writeCb := false, readCb := true, ofs := 0 }
      else { w with ofs := w.ofs + ret }

/-- `out_state` and `in_state` with their callbacks. -/
structure Relay where
  outState : Way
  inState : Way

/-- The callbacks of the event loop, with what their reads and writes transfer. -/
inductive Callback where
  | readData (rounds : List (List UInt8 × ℕ))
  | writeNet (n : ℕ)
  | readNet (rounds : List (List UInt8 × ℕ))
  | writeData (n : ℕ)

/-- The event loop calls what is registered: `LOCAL_R.read_cb`, `REMOTE_W.write_cb`, `REMOTE_R.read_cb` or
`LOCAL_W.write_cb`. -/
def Relay.call (s : Relay) : Callback → Relay
  | .readData rounds => if s.outState.readCb then { s with outState := s.outState.read rounds } else s
  | .writeNet n => if s.outState.writeCb then { s with outState := s.outState.write n } else s
  | .readNet rounds => if s.inState.readCb then { s with inState := s.inState.read rounds } else s
  | .writeData n => if s.inState.writeCb then { s with inState := s.inState.write n } else s

def Relay.run (s : Relay) (calls : List Callback) : Relay := calls.foldl Relay.call s

/-- One pass of `io_loop`: the descriptors that `select` finds ready, with what they transfer. -/
structure Pass where
  localR : Option (List (List UInt8 × ℕ))
  localW : Option ℕ
  remoteR : Option (List (List UInt8 × ℕ))
  remoteW : Option ℕ

/-- The callbacks of one pass, in the order of `fds`. The control pipe brings nothing after `CMD_INIT`, since
statistics are asked of compressed links only. -/
def Pass.calls (pass : Pass) : List Callback :=
  (pass.localR.map Callback.readData).toList ++ (pass.localW.map Callback.writeData).toList ++
    (pass.remoteR.map Callback.readNet).toList ++ (pass.remoteW.map Callback.writeNet).toList

/-- `io_loop`. -/
def Relay.ioLoop (s : Relay) (passes : List Pass) : Relay := passes.foldl (fun s pass => s.run pass.calls) s

/-- After `cmd_init`. The buffers may have been used before. -/
def Relay.init (outBuf inBuf : List UInt8) : Relay :=
  ⟨⟨outBuf, 0, 0, true, false, false, [], []⟩, ⟨inBuf, 0, 0, true, false, false, [], []⟩⟩

/-! ### Nothing is lost -/

/-- What is in the buffer and not written. -/
def Way.pending (w : Way) : List UInt8 := (w.buf.drop w.ofs).take w.len

/-- The bytes written are the first of those read, the offset and the count describe the rest, no assertion
has failed, and reading is off, and writing on, while something is pending. -/
structure Way.Relays (w : Way) : Prop where
  bytes : w.put ++ w.pending = w.got
  counted : w.pending.length = w.len
  asserted : w.assertFailed = false
  reading : w.readCb = true ↔ w.pending = []
  writing : w.writeCb = true ↔ w.pending ≠ []

theorem Way.Relays.pending_nil {w : Way} (relays : w.Relays) : w.pending = [] ↔ w.len = 0 := by
  rw [← List.length_eq_zero_iff, relays.counted]

/-- A round of reading that is written at once leaves nothing behind; else the rest is pending. -/
theorem Way.Relays.readLoop {w : Way} (relays : w.Relays) (empty : w.len = 0)
    (rounds : List (List UInt8 × ℕ)) : (w.readLoop rounds).Relays := by
  induction rounds generalizing w with
  | nil => exact relays
  | cons round rounds ih =>
    obtain ⟨data, n⟩ := round
    simp only [Way.readLoop]
    generalize data.take readlen = data
    split
    · exact relays
    · rename_i some
      have nothing : w.pending = [] := relays.pending_nil.mpr empty
      have all := relays.bytes
      rw [nothing, List.append_nil] at all
      have front : ∀ m ≤ data.length, (w.fill data).buf.take m = data.take m := by
        intro m less
        exact List.take_append_of_le_length less
      split
      · rename_i part
        -- the rest of the data is pending
        have rest : ((w.fill data).buf.drop (min n data.length)).take (data.length - min n data.length) =
            data.drop (min n data.length) := by
          rw [← List.drop_take, front _ (Nat.le_refl _), List.take_length]
        have length : (data.drop (min n data.length)).length = data.length - min n data.length :=
          List.length_drop
        have left : data.drop (min n data.length) ≠ [] := by
          rw [ne_eq, ← List.length_eq_zero_iff, length]
          omega
        constructor
        · simp only [Way.pending, rest, front _ (Nat.min_le_right n data.length)]
          rw [List.append_assoc, List.take_append_drop]
          exact congrArg (· ++ data) all
        · simp only [Way.pending, rest, length]
        · exact relays.asserted
        · simp only [Way.pending, rest]
          simpa using left
        · simpa only [Way.pending, rest, true_iff] using left
      · rename_i whole
        refine ih ?_ (show (w.fill data).len = 0 from empty)
        have same : min n data.length = data.length := by omega
        constructor
        · simp only [Way.pending, Way.fill, empty, List.take_zero, List.append_nil, same]
          rw [List.take_left, all]
        · simp only [Way.pending, Way.fill, empty, List.take_zero, List.length_nil]
        · exact relays.asserted
        · have reading := relays.reading
          simpa only [Way.pending, Way.fill, empty, List.take_zero] using reading
        · have writing := relays.writing
          simpa only [Way.pending, Way.fill, empty, List.take_zero] using writing

theorem Way.Relays.read {w : Way} (relays : w.Relays) (registered : w.readCb = true)
    (rounds : List (List UInt8 × ℕ)) : (w.read rounds).Relays := by
  have empty : w.len = 0 := relays.pending_nil.mp (relays.reading.mp registered)
  rw [Way.read, if_neg (not_not_intro empty)]
  exact relays.readLoop empty rounds

theorem Way.Relays.write {w : Way} (relays : w.Relays) (registered : w.writeCb = true) (n : ℕ) :
    (w.write n).Relays := by
  have some : w.len ≠ 0 := fun none => relays.writing.mp registered (relays.pending_nil.mpr none)
  simp only [Way.write, if_neg some]
  generalize ret_eq : min n w.len = ret
  have less : ret ≤ w.len := ret_eq ▸ Nat.min_le_right n w.len
  have taken : (w.buf.drop w.ofs).take ret = w.pending.take ret := by
    rw [Way.pending, List.take_take, Nat.min_eq_left less]
  rw [taken]
  split
  · exact relays
  split
  · rename_i whole
    have all : w.pending.take ret = w.pending := by
      apply List.take_of_length_le
      rw [relays.counted]
      omega
    have none : w.len - ret = 0 := whole
    rw [all, relays.bytes]
    constructor <;> simp [Way.pending, none, relays.asserted]
  · rename_i part
    have rest : (w.buf.drop (w.ofs + ret)).take (w.len - ret) = w.pending.drop ret := by
      rw [Way.pending, List.drop_take, List.drop_drop]
    have length : (w.pending.drop ret).length = w.len - ret := by
      rw [List.length_drop, relays.counted]
    have left : w.pending.drop ret ≠ [] := by
      rw [ne_eq, ← List.length_eq_zero_iff, length]
      exact part
    have before : w.pending ≠ [] := relays.writing.mp registered
    have off : w.readCb = true ↔ w.pending.drop ret = [] := by
      have reading := relays.reading
      simp only [before, iff_false] at reading
      simpa only [left, iff_false] using reading
    have on : w.writeCb = true ↔ w.pending.drop ret ≠ [] := iff_of_true registered left
    have bytes : w.put ++ w.pending.take ret ++ w.pending.drop ret = w.got := by
      rw [List.append_assoc, List.take_append_drop, relays.bytes]
    rw [← rest] at off on bytes length
    exact ⟨bytes, length, relays.asserted, off, on⟩

/-! ### Both directions -/

theorem Relay.call_relays {s : Relay} (outState : s.outState.Relays) (inState : s.inState.Relays)
    (call : Callback) : (s.call call).outState.Relays ∧ (s.call call).inState.Relays := by
  cases call with
  | readData rounds =>
    simp only [Relay.call]
    split
    · rename_i registered
      exact ⟨outState.read registered rounds, inState⟩
    · exact ⟨outState, inState⟩
  | writeNet n =>
    simp only [Relay.call]
    split
    · rename_i registered
      exact ⟨outState.write registered n, inState⟩
    · exact ⟨outState, inState⟩
  | readNet rounds =>
    simp only [Relay.call]
    split
    · rename_i registered
      exact ⟨outState, inState.read registered rounds⟩
    · exact ⟨outState, inState⟩
  | writeData n =>
    simp only [Relay.call]
    split
    · rename_i registered
      exact ⟨outState, inState.write registered n⟩
    · exact ⟨outState, inState⟩

theorem Relay.run_relays {s : Relay} (outState : s.outState.Relays) (inState : s.inState.Relays)
    (calls : List Callback) : (s.run calls).outState.Relays ∧ (s.run calls).inState.Relays := by
  induction calls generalizing s with
  | nil => exact ⟨outState, inState⟩
  | cons call calls ih =>
    obtain ⟨outState', inState'⟩ := Relay.call_relays outState inState call
    exact ih outState' inState'

/-- The event loop is a run of callbacks. -/
theorem Relay.ioLoop_eq (s : Relay) (passes : List Pass) : s.ioLoop passes = s.run (passes.flatMap Pass.calls) := by
  induction passes generalizing s with
  | nil => rfl
  | cons pass passes ih =>
    rw [Relay.ioLoop, List.foldl_cons, ← Relay.ioLoop, ih, List.flatMap_cons, Relay.run, Relay.run, Relay.run,
      List.foldl_append]

theorem Relay.init_relays (outBuf inBuf : List UInt8) :
    (Relay.init outBuf inBuf).outState.Relays ∧ (Relay.init outBuf inBuf).inState.Relays := by
  constructor <;> constructor <;> simp [Relay.init, Way.pending]

/-- Whatever callbacks are called after `CMD_INIT`, and so however `io_loop` calls them, each direction
relays. -/
theorem relay_spec (outBuf inBuf : List UInt8) :
    (∀ calls, ((Relay.init outBuf inBuf).run calls).outState.Relays ∧
      ((Relay.init outBuf inBuf).run calls).inState.Relays) ∧
    ∀ passes, ((Relay.init outBuf inBuf).ioLoop passes).outState.Relays ∧
      ((Relay.init outBuf inBuf).ioLoop passes).inState.Relays := by
  obtain ⟨outState, inState⟩ := Relay.init_relays outBuf inBuf
  refine ⟨Relay.run_relays outState inState, fun passes => ?_⟩
  rw [Relay.ioLoop_eq]
  exact Relay.run_relays outState inState _

end Ircd.Servlink
