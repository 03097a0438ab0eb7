import GrpcQuic.Transition.Runs
import Mathlib.Algebra.Ring.Nat
import Mathlib.Data.Finset.Card

/-! # Counting the members of a system

A system keeps its components in a list and changes one of them at a time. What a
component counts moves the total by the same amount. A family of counters has one
for each label that has been used.
-/
namespace GrpcQuic.Transition
variable {α β σ : Type*}

/-- What moves by one at each step of a kind counts the steps of that kind. -/
theorem exec_countP {step : σ → α → Option σ} {f : σ → ℕ} {p : α → Bool} {s t : σ} {as : List α}
    (h : exec step s as = some t)
    (hstep : ∀ s a t, step s a = some t → f t = f s + if p a then 1 else 0) :
    f t = f s + as.countP p := by
  induction as generalizing s with
  | nil =>
    cases h
    rfl
  | cons a as ih =>
    obtain ⟨u,hu,hrest⟩ := exec_cons_eq_some.mp h
    rw [ih hrest,hstep s a u hu,List.countP_cons]
    omega

theorem countP_set_add (p : α → Bool) {l : List α} {i : ℕ} {a : α} (h : l[i]? = some a) (x : α) :
    (l.set i x).countP p + (if p a then 1 else 0) = l.countP p + if p x then 1 else 0 := by
  induction l generalizing i with
  | nil => cases h
  | cons b l ih =>
    cases i with
    | zero =>
      cases h
      simp only [List.set_cons_zero,List.countP_cons]
      omega
    | succ i =>
      have hrest := ih (i := i) h
      simp only [List.set_cons_succ,List.countP_cons]
      omega

/-- Places of members that count are no more than the members that count. -/
theorem card_le_countP {p : α → Bool} {l : List α} {places : Finset ℕ}
    (h : ∀ i ∈ places, ∃ a, l[i]? = some a ∧ p a = true) : places.card ≤ l.countP p := by
  induction l using List.reverseRecOn generalizing places with
  | nil =>
    refine (Finset.card_eq_zero.mpr (Finset.eq_empty_of_forall_notMem fun i hi => ?_)).le
    obtain ⟨a,ha,-⟩ := h i hi
    cases ha
  | append_singleton l a ih =>
    have hrest : ∀ i ∈ places.erase l.length, ∃ b, l[i]? = some b ∧ p b = true := by
      intro i hi
      obtain ⟨hne,hi⟩ := Finset.mem_erase.mp hi
      obtain ⟨b,hb,hp⟩ := h i hi
      have hlt := (List.getElem?_eq_some_iff.mp hb).1
      rw [List.length_append,List.length_singleton] at hlt
      exact ⟨b,(List.getElem?_append_left (by omega)).symm.trans hb,hp⟩
    have hle := ih hrest
    rw [List.countP_append,List.countP_singleton]
    by_cases hm : l.length ∈ places
    · obtain ⟨b,hb,hp⟩ := h _ hm
      cases List.getElem?_concat_length.symm.trans hb
      rw [Finset.card_erase_of_mem hm] at hle
      rw [if_pos hp]
      omega
    · rw [Finset.erase_eq_of_notMem hm] at hle
      omega

/-- The same one level up, for the members of the components. -/
theorem countP_flatMap_set (p : β → Bool) (f : α → List β) {l : List α} {i : ℕ} {a : α}
    (h : l[i]? = some a) (x : α) :
    ((l.set i x).flatMap f).countP p + (f a).countP p = (l.flatMap f).countP p + (f x).countP p := by
  induction l generalizing i with
  | nil => cases h
  | cons b l ih =>
    cases i with
    | zero =>
      cases h
      simp only [List.set_cons_zero,List.flatMap_cons,List.countP_append]
      omega
    | succ i =>
      have hrest := ih (i := i) h
      simp only [List.set_cons_succ,List.flatMap_cons,List.countP_append]
      omega

theorem countP_le_countP_flatMap (p : β → Bool) (f : α → List β) {l : List α} {a : α} (h : a ∈ l) :
    (f a).countP p ≤ (l.flatMap f).countP p := by
  obtain ⟨as,bs,rfl⟩ := List.append_of_mem h
  simp only [List.flatMap_append,List.flatMap_cons,List.countP_append]
  omega

theorem sum_map_set_add (f : α → ℕ) {l : List α} {i : ℕ} {a : α} (h : l[i]? = some a) (x : α) :
    ((l.set i x).map f).sum + f a = (l.map f).sum + f x := by
  induction l generalizing i with
  | nil => cases h
  | cons b l ih =>
    cases i with
    | zero =>
      cases h
      simp only [List.set_cons_zero,List.map_cons,List.sum_cons]
      omega
    | succ i =>
      have hrest := ih (i := i) h
      simp only [List.set_cons_succ,List.map_cons,List.sum_cons]
      omega

abbrev CounterVec (κ : Type*) := List (κ × ℕ)

namespace CounterVec
variable {κ : Type*}

def incBy [DecidableEq κ] (k : κ) (n : ℕ) : CounterVec κ → CounterVec κ
  | [] => [(k,n)]
  | (k',m) :: rest => if k' = k then (k',m + n) :: rest else (k',m) :: incBy k n rest

def total (p : κ → Bool) : CounterVec κ → ℕ
  | [] => 0
  | (k,n) :: rest => (if p k then n else 0) + total p rest

@[simp] theorem total_incBy [DecidableEq κ] (p : κ → Bool) (k : κ) (n : ℕ) (c : CounterVec κ) :
    total p (incBy k n c) = total p c + if p k then n else 0 := by
  induction c with
  | nil => simp [incBy,total]
  | cons e rest ih =>
    by_cases h : e.1 = k
    · subst h
      simp only [incBy,if_true,total]
      split <;> omega
    · simp only [incBy,if_neg h,total,ih]
      omega

end CounterVec

end GrpcQuic.Transition
