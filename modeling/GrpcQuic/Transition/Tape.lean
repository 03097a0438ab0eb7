import Mathlib.Data.List.Infix

/-! # Tapes

A reliable ordered channel as an append-only tape with a read position: what is
written stays written, and reading only moves the position forward, by pieces of
any size.
-/
namespace GrpcQuic.Transition
variable {α : Type*}

structure Tape (α : Type*) where
  written : List α
  taken : ℕ
  taken_le : taken ≤ written.length

namespace Tape

def empty : Tape α := ⟨[],0,le_rfl⟩

def append (t : Tape α) (xs : List α) : Tape α where
  written := t.written ++ xs
  taken := t.taken
  taken_le := by
    rw [List.length_append]
    exact Nat.le_add_right_of_le t.taken_le

def next (t : Tape α) (n : ℕ) : List α := (t.written.drop t.taken).take n

def pull (t : Tape α) (n : ℕ) : Tape α where
  written := t.written
  taken := t.taken + (t.next n).length
  taken_le := by
    have hle := t.taken_le
    simp only [next,List.length_take,List.length_drop]
    omega

def pulled (t : Tape α) : List α := t.written.take t.taken

@[simp] theorem append_pulled (t : Tape α) (xs : List α) : (t.append xs).pulled = t.pulled :=
  List.take_append_of_le_length t.taken_le

theorem pull_pulled (t : Tape α) (n : ℕ) : (t.pull n).pulled = t.pulled ++ t.next n := by
  have hnext : t.next n = (t.written.drop t.taken).take (t.next n).length := by
    simp only [next,List.length_take,List.take_eq_take_iff]
    omega
  calc (t.pull n).pulled
      = t.written.take t.taken ++ (t.written.drop t.taken).take (t.next n).length := List.take_add
    _ = t.pulled ++ t.next n := by rw [← hnext]; rfl

theorem pulled_prefix (t : Tape α) : t.pulled <+: t.written := List.take_prefix _ _

theorem next_of_prefix {t : Tape α} {xs : List α} (h : xs <+: t.written.drop t.taken) :
    t.next xs.length = xs := (List.prefix_iff_eq_take.mp h).symm

def Exhausted (t : Tape α) : Prop := t.taken = t.written.length

instance (t : Tape α) : Decidable t.Exhausted := inferInstanceAs (Decidable (_ = _))

theorem Exhausted.pulled {t : Tape α} (h : t.Exhausted) : t.pulled = t.written := by
  unfold Tape.pulled
  rw [h]
  exact List.take_length

end Tape

end GrpcQuic.Transition
