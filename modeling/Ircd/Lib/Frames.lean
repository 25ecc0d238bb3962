import Mathlib.Data.List.Basic

/-!
# Frames in a byte stream

A frame is a tag, and some tags are followed by a payload, with its length in two bytes in front of it.
What a reader of the stream has taken so far falls into whole frames and the first bytes of the next.
-/
namespace Frames

structure Frame where
  tag : UInt8
  payload : Option (List UInt8)
deriving DecidableEq

/-- The frame on the wire. -/
def Frame.encode : Frame → List UInt8
  | ⟨tag, none⟩ => [tag]
  | ⟨tag, some payload⟩ =>
    tag :: (payload.length >>> 8).toUInt8 :: (payload.length &&& 0xff).toUInt8 :: payload

def encodeAll (frames : List Frame) : List UInt8 := frames.flatMap Frame.encode

@[simp] theorem encodeAll_nil : encodeAll [] = [] := rfl

@[simp] theorem encodeAll_cons (frame : Frame) (frames : List Frame) :
    encodeAll (frame :: frames) = frame.encode ++ encodeAll frames := rfl

@[simp] theorem encodeAll_append (frames frames' : List Frame) :
    encodeAll (frames ++ frames') = encodeAll frames ++ encodeAll frames' :=
  List.flatMap_append ..

theorem Frame.encode_length_pos (frame : Frame) : 0 < frame.encode.length := by
  obtain ⟨tag, _ | payload⟩ := frame <;> simp [encode]

/-- The two length bytes say how long the payload is. -/
theorem length_of_bytes {n : ℕ} (short : n < 65536) :
    (n >>> 8).toUInt8.toNat <<< 8 ||| (n &&& 0xff).toUInt8.toNat = n := by
  have low : n &&& 0xff = n % 2 ^ 8 := Nat.and_two_pow_sub_one_eq_mod n 8
  have high : n >>> 8 = n / 2 ^ 8 := Nat.shiftRight_eq_div_pow n 8
  have highByte : (n / 2 ^ 8).toUInt8.toNat = n / 2 ^ 8 := by
    rw [Nat.toUInt8, UInt8.toNat_ofNat']
    omega
  have lowByte : (n % 2 ^ 8).toUInt8.toNat = n % 2 ^ 8 := by
    rw [Nat.toUInt8, UInt8.toNat_ofNat']
    omega
  rw [low, high, highByte, lowByte, Nat.shiftLeft_eq, Nat.mul_comm,
    ← Nat.two_pow_add_eq_or_of_lt (Nat.mod_lt n (by decide))]
  omega

/-! ### Where a reader stands -/

/-- The frames that are whole after `n` bytes of the stream. -/
def completed : List Frame → ℕ → List Frame
  | [], _ => []
  | frame :: frames, n =>
    if frame.encode.length ≤ n then frame :: completed frames (n - frame.encode.length) else []

/-- The frames `done` have been taken from the stream of `frames`, and the bytes `taken` of the next. The
bytes `left` are still in the stream. -/
structure At (frames done : List Frame) (taken left : List UInt8) : Prop where
  split : ∃ rest, frames = done ++ rest ∧ taken ++ left = encodeAll rest ∧
    ∀ frame more, rest = frame :: more → taken.length < frame.encode.length

/-- Between two frames. -/
theorem At.between (done rest : List Frame) : At (done ++ rest) done [] (encodeAll rest) :=
  ⟨rest, rfl, rfl, fun frame _ _ => frame.encode_length_pos⟩

/-- Inside a frame. -/
theorem At.inside (done : List Frame) {frame : Frame} (rest : List Frame) {taken left : List UInt8}
    (split : taken ++ left = frame.encode) (some : left ≠ []) :
    At (done ++ frame :: rest) done taken (left ++ encodeAll rest) := by
  refine ⟨frame :: rest, rfl, by rw [encodeAll_cons, ← split, List.append_assoc], ?_⟩
  rintro other more same
  obtain ⟨rfl, -⟩ := List.cons.inj same
  rw [← split, List.length_append]
  have := List.length_pos_iff.mpr some
  omega

theorem completed_append (done rest : List Frame) (n : ℕ) :
    completed (done ++ rest) ((encodeAll done).length + n) = done ++ completed rest n := by
  induction done with
  | nil => simp
  | cons frame done ih =>
    rw [List.cons_append, completed, encodeAll_cons, List.length_append, if_pos (by omega),
      List.cons_append, ← ih]
    congr 2
    omega

/-- What has been taken says which frames are done. -/
theorem At.completed {frames done : List Frame} {taken left : List UInt8}
    (position : At frames done taken left) :
    completed frames ((encodeAll frames).length - left.length) = done := by
  obtain ⟨rest, rfl, split, short⟩ := position
  have length := congrArg List.length split
  rw [List.length_append] at length
  have bytes : (encodeAll (done ++ rest)).length - left.length = (encodeAll done).length + taken.length := by
    rw [encodeAll_append, List.length_append]
    omega
  rw [bytes, completed_append]
  cases rest with
  | nil => simp [Frames.completed]
  | cons frame rest =>
    rw [Frames.completed, if_neg (Nat.not_le.mpr (short frame rest rfl)), List.append_nil]

end Frames
