import GrpcQuic.Client.PoolDeath
import Mathlib.Algebra.BigOperators.Group.Finset.Piecewise

/-! # How often the pool dials

Every connect task is accounted for: it is in flight, has failed, or has made a
connection that is open or closed. And a task is only spawned for a caller that
has not joined another one.
-/
namespace GrpcQuic.Pool
open Transition
variable {Addr ι : Type*} [DecidableEq Addr] [DecidableEq ι] {s t : State Addr ι}

def State.dialledAt (s : State Addr ι) (a : Addr) (k : ℕ) : Bool :=
  match s.tasks k with
  | some ⟨b,_⟩ => decide (b = a)
  | none => false

def State.failedAt (s : State Addr ι) (a : Addr) (k : ℕ) : Bool :=
  match s.tasks k with
  | some ⟨b,.completed (.error _)⟩ => decide (b = a)
  | _ => false

def State.closedAt (s : State Addr ι) (a : Addr) (k : ℕ) : Bool :=
  match s.tasks k with
  | some ⟨b,.completed (.ok e)⟩ => decide (b = a) && s.isClosed e.quic
  | _ => false

def State.dialled (s : State Addr ι) (a : Addr) : Finset ℕ :=
  (Finset.range s.nextTask).filter fun k => s.dialledAt a k = true

def State.failed (s : State Addr ι) (a : Addr) : Finset ℕ :=
  (Finset.range s.nextTask).filter fun k => s.failedAt a k = true

def State.closedInstalled (s : State Addr ι) (a : Addr) : Finset ℕ :=
  (Finset.range s.nextTask).filter fun k => s.closedAt a k = true

omit [DecidableEq ι] in
/-- A task of the address is in exactly one of the four states. -/
theorem dialledAt_split (s : State Addr ι) (a : Addr) (k : ℕ) :
    (if s.dialledAt a k = true then 1 else 0) = (if s.inFlightAt a k = true then 1 else 0) +
      (if s.openAt a k = true then 1 else 0) + (if s.failedAt a k = true then 1 else 0) +
      if s.closedAt a k = true then 1 else 0 := by
  unfold State.dialledAt State.inFlightAt State.openAt State.failedAt State.closedAt
  cases s.tasks k with
  | none => rfl
  | some task =>
    obtain ⟨b,p⟩ := task
    by_cases hb : b = a
    · cases p with
      | completed res =>
        cases res with
        | error e => simp [hb,TaskPhase.inFlight]
        | ok e => cases hc : s.isClosed e.quic <;> simp [hb,hc,TaskPhase.inFlight]
      | _ => simp [hb,TaskPhase.inFlight]
    · cases p with
      | completed res => cases res <;> simp [hb]
      | _ => simp [hb]

omit [DecidableEq ι] in
theorem card_dialled (s : State Addr ι) (a : Addr) : (s.dialled a).card =
    (s.inFlight a).card + (s.openInstalled a).card + (s.failed a).card + (s.closedInstalled a).card := by
  simp only [State.dialled,State.inFlight,State.openInstalled,State.failed,State.closedInstalled,
    Finset.card_filter]
  rw [← Finset.sum_add_distrib,← Finset.sum_add_distrib,← Finset.sum_add_distrib]
  exact Finset.sum_congr rfl fun k _ => dialledAt_split s a k

def Spawned (s : State Addr ι) : Prop := ∀ k, k < s.nextTask → ∃ i a, s.joined i = some (a,k)

theorem step_nextTask {l : Label Addr ι} (h : step s l = some t) : t.nextTask = s.nextTask ∨
    ∃ i a, l = .lookup i ∧ t.nextTask = s.nextTask + 1 ∧ t.joined i = some (a,s.nextTask) := by
  rcases (step_change h).tasks with ⟨-,-,hn⟩ | ⟨i,a,hl,-,-,hn,hj⟩ | ⟨k,a,p,p',-,-,-,hn⟩
  · exact .inl hn
  · exact .inr ⟨i,a,hl,hn,hj⟩
  · exact .inl hn

theorem step_spawned (h : Inv s) (hS : Spawned s) {l : Label Addr ι} (hst : step s l = some t) : Spawned t := by
  have hold (k : ℕ) (hk : k < s.nextTask) : ∃ i a, t.joined i = some (a,k) := by
    obtain ⟨i,a,hj⟩ := hS k hk
    exact ⟨i,a,step_joined h hst hj⟩
  intro k hk
  rcases step_nextTask hst with hn | ⟨i,a,-,hn,hj⟩
  · exact hold k (hn ▸ hk)
  · rcases Nat.lt_or_ge k s.nextTask with hlt | hge
    · exact hold k hlt
    · have hkn : k = s.nextTask := by omega
      exact ⟨i,a,hkn ▸ hj⟩

omit [DecidableEq Addr] [DecidableEq ι] in
theorem Spawned.card_le (h : Spawned s) {callers : Finset ι} (hc : ∀ i, s.joined i ≠ none → i ∈ callers) :
    s.nextTask ≤ callers.card := by
  have hsub : (Finset.range s.nextTask).image some ⊆ callers.image fun i => (s.joined i).map Prod.snd := by
    intro o ho
    obtain ⟨k,hk,rfl⟩ := Finset.mem_image.mp ho
    obtain ⟨i,a,hj⟩ := h k (Finset.mem_range.mp hk)
    exact Finset.mem_image.mpr ⟨i,hc i (by rw [hj]; exact nofun),by rw [hj]; rfl⟩
  calc s.nextTask = ((Finset.range s.nextTask).image some).card := by
        rw [Finset.card_image_of_injective _ (Option.some_injective _),Finset.card_range]
    _ ≤ (callers.image fun i => (s.joined i).map Prod.snd).card := Finset.card_le_card hsub
    _ ≤ callers.card := Finset.card_image_le

theorem exec_spawned {ls : List (Label Addr ι)} (h : exec step State.init ls = some s) : Spawned s := by
  have hI : Inv s ∧ Spawned s := exec_invariant (I := fun s => Inv s ∧ Spawned s)
    (fun _ _ _ hs hst => ⟨step_inv hs.1 hst,step_spawned hs.1 hs.2 hst⟩)
    ⟨⟨slotInv_init,senderInv_init⟩,fun k hk => (Nat.not_lt_zero k hk).elim⟩ h
  exact hI.2

/-- The dials for an address are conserved: at most one is in flight or still open,
and every other one has failed or has lost its connection. Nor are there more than
callers that had to wait. -/
theorem dials_conserved {ls : List (Label Addr ι)} (h : exec step State.init ls = some s) :
    (∀ a, (s.dialled a).card =
        (s.inFlight a).card + (s.openInstalled a).card + (s.failed a).card + (s.closedInstalled a).card ∧
      (s.dialled a).card ≤ 1 + (s.failed a).card + (s.closedInstalled a).card) ∧
    ∀ callers : Finset ι, (∀ i, s.joined i ≠ none → i ∈ callers) → s.nextTask ≤ callers.card := by
  refine ⟨fun a => ?_,fun callers hc => (exec_spawned h).card_le hc⟩
  have hone := (exec_inv h).card_le_one a
  have hsum := card_dialled s a
  exact ⟨hsum,by omega⟩

/-- The first dial fails for both its waiters, the second succeeds and is closed. -/
def redialled : List (Label ℕ ℕ) :=
  [.enter 0 7,.lookup 0,.enter 1 7,.lookup 1,.connectFailed 0 (.transport (.connection "timed out")),.complete 0,
   .answer,.answer,.finish,.enter 2 7,.lookup 2,.connected 1,.h3Ready 1,.complete 1,.answer,.finish,.close 1]

theorem dials_conserved_redialled : ∃ s, exec step State.init redialled = some s ∧
    (s.dialled 7).card ≤ 1 + (s.failed 7).card + (s.closedInstalled 7).card := by
  have h : exec step State.init redialled = some _ := rfl
  exact ⟨_,h,((dials_conserved h).1 7).2⟩

end GrpcQuic.Pool
