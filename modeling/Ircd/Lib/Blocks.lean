import Ircd.Lib.Run
import Mathlib.Logic.Function.Basic

/-!
# Allocated blocks

What a program does with the blocks that it has from the allocator: it allocates one, reads or writes it, and frees it.
It is sound if what it reads, writes or frees is allocated then.
-/
namespace Ircd

/-- One thing done with a block. -/
inductive BlockOp (P : Type*)
  | alloc (p : P)
  | use (p : P)
  | free (p : P)

variable {P : Type*} [DecidableEq P]

/-- Which blocks are allocated afterwards. -/
def BlockOp.after (live : P → Bool) : BlockOp P → P → Bool
  | alloc p => Function.update live p true
  | use _ => live
  | free p => Function.update live p false

/-- A new block is one that is not allocated, and the other ones are allocated. -/
def BlockOp.Allowed (live : P → Bool) : BlockOp P → Prop
  | alloc p => live p = false
  | use p => live p = true
  | free p => live p = true

/-- Everything that is done is allowed when it is done. -/
def Sound (live : P → Bool) (ops : List (BlockOp P)) : Prop := Along BlockOp.after BlockOp.Allowed live ops

/-- Which blocks are allocated in the end. -/
def liveAfter (live : P → Bool) (ops : List (BlockOp P)) : P → Bool := ops.foldl BlockOp.after live

variable {live : P → Bool} {ops ops' : List (BlockOp P)} {op : BlockOp P} {p : P}

@[simp] theorem sound_nil : Sound live ([] : List (BlockOp P)) := trivial

@[simp] theorem sound_cons : Sound live (op :: ops) ↔ op.Allowed live ∧ Sound (op.after live) ops := Iff.rfl

theorem sound_append : Sound live (ops ++ ops') ↔ Sound live ops ∧ Sound (liveAfter live ops) ops' := by
  induction ops generalizing live with
  | nil => simp [liveAfter]
  | cons op ops ih =>
    rw [List.cons_append, sound_cons, sound_cons, ih, and_assoc]
    rfl

@[simp] theorem liveAfter_nil : liveAfter live ([] : List (BlockOp P)) = live := rfl

@[simp] theorem liveAfter_cons : liveAfter live (op :: ops) = liveAfter (op.after live) ops := rfl

theorem liveAfter_append : liveAfter live (ops ++ ops') = liveAfter (liveAfter live ops) ops' :=
  List.foldl_append

omit [DecidableEq P] in
@[simp] theorem allowed_alloc : (BlockOp.alloc p).Allowed live ↔ live p = false := Iff.rfl

omit [DecidableEq P] in
@[simp] theorem allowed_use : (BlockOp.use p).Allowed live ↔ live p = true := Iff.rfl

omit [DecidableEq P] in
@[simp] theorem allowed_free : (BlockOp.free p).Allowed live ↔ live p = true := Iff.rfl

@[simp] theorem after_alloc : (BlockOp.alloc p).after live = Function.update live p true := rfl

@[simp] theorem after_use : (BlockOp.use p).after live = live := rfl

@[simp] theorem after_free : (BlockOp.free p).after live = Function.update live p false := rfl

end Ircd
