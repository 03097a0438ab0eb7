import GrpcQuic.Client.PoolGuarantees
import GrpcQuic.Transition.Reach

/-! # No caller of the pool is stuck

Whatever the network answers, the connect tasks alone bring every answer to its
waiter, and a caller needs no other caller to get its result.
-/
namespace GrpcQuic.Pool
open Transition
variable {Addr ι : Type*} [DecidableEq Addr] [DecidableEq ι]

/-- What each connect task gets from `connect_fn` and from the h3 setup. -/
structure Network where
  connect : ℕ → Except ClientError Unit
  h3 : ℕ → Except CoreError Unit

def Label.follows (net : Network) : Label Addr ι → Prop
  | .connected k => net.connect k = .ok ()
  | .connectFailed k e => net.connect k = .error e
  | .h3Ready k => net.h3 k = .ok ()
  | .h3Failed k e => net.h3 k = .error e
  | .complete _ => True
  | .answer => True
  | .finish => True
  | _ => False

def Label.runs (net : Network) (k : ℕ) (l : Label Addr ι) : Prop :=
  l.follows net ∧ ∀ j, l.connectTask = some j → j = k

structure Undisturbed (s t : State Addr ι) : Prop where
  inv : Inv t
  phase : t.phase = s.phase
  joined : t.joined = s.joined

variable {s t u : State Addr ι} (net : Network)

omit [DecidableEq Addr] [DecidableEq ι] in
theorem Undisturbed.refl (h : Inv s) : Undisturbed s s := ⟨h,rfl,rfl⟩

omit [DecidableEq Addr] [DecidableEq ι] in
theorem Undisturbed.trans (h : Undisturbed s t) (h' : Undisturbed t u) : Undisturbed s u :=
  ⟨h'.inv,h'.phase.trans h.phase,h'.joined.trans h.joined⟩

theorem empties (h : Inv s) : CanReach step (fun l => l = .answer ∨ l = .finish)
    (fun t => Undisturbed s t ∧ t.batch = none ∧ t.tasks = s.tasks) s := by
  cases hb : s.batch with
  | none => exact .now ⟨.refl h,hb,rfl⟩
  | some b =>
    obtain ⟨a,k,r,ws⟩ := b
    induction ws generalizing s with
    | nil =>
      have hst : step s .finish = some { s with batch := none } := by simp only [step,hb]
      exact .next (.inr rfl) hst (.now ⟨⟨step_inv h hst,rfl,rfl⟩,rfl,rfl⟩)
    | cons i rest ih =>
      have hst : step s .answer = some { s with
          sent := Function.update s.sent i (s.sent i ++ [r]), batch := some ⟨a,k,r,rest⟩ } := by
        simp only [step,hb]
      have hinv := step_inv h hst
      refine .next (.inl rfl) hst ((ih hinv rfl).mono ?_)
      rintro t ⟨ht,hn,htasks⟩
      exact ⟨⟨ht.inv,ht.phase,ht.joined⟩,hn,htasks⟩

theorem drains (h : Inv s) : CanReach step (Label.follows net)
    (fun t => Undisturbed s t ∧ t.batch = none ∧ t.tasks = s.tasks) s :=
  (empties h).widen (by rintro _ (rfl | rfl) <;> trivial)

variable {k : ℕ}

theorem runs_empties (h : Inv s) : CanReach step (Label.runs net k)
    (fun t => Undisturbed s t ∧ t.batch = none ∧ t.tasks = s.tasks) s :=
  (empties h).widen (by rintro _ (rfl | rfl) <;> exact ⟨trivial,nofun⟩)

theorem locks (h : Inv s) {a : Addr} {res : PoolResult} (hk : s.tasks k = some ⟨a,.locking res⟩) :
    CanReach step (Label.runs net k)
      (fun t => Undisturbed s t ∧ t.batch = none ∧ ∃ res, t.tasks k = some ⟨a,.completed res⟩) s := by
  refine (runs_empties net h).trans ?_
  rintro t ⟨ht,hb,htasks⟩
  have hst : step t (.complete k) = some (t.completeTask k a res) := by
    simp only [step,htasks,hk,hb]
  have hinv := step_inv ht.inv hst
  refine .next (a := .complete k) ⟨trivial,fun _ hj => (Option.some.inj hj).symm⟩ hst ((runs_empties net hinv).mono ?_)
  rintro u ⟨hu,hub,hutasks⟩
  refine ⟨ht.trans ⟨hu.inv,hu.phase,hu.joined⟩,hub,res,?_⟩
  rw [hutasks]
  exact Function.update_self ..

theorem setsUp (h : Inv s) {a : Addr} (hk : s.tasks k = some ⟨a,.h3Setup⟩) :
    CanReach step (Label.runs net k)
      (fun t => Undisturbed s t ∧ t.batch = none ∧ ∃ res, t.tasks k = some ⟨a,.completed res⟩) s := by
  cases hr : net.h3 k with
  | ok _ =>
    have hst : step s (.h3Ready k) = some { s.setTask k ⟨a,.locking (.ok ⟨⟨k⟩,⟨k⟩⟩)⟩ with
        connectionsTotal := s.connectionsTotal + 1 } := by
      simp only [step,hk]
    have hinv := step_inv h hst
    refine .next (a := .h3Ready k) ⟨hr,fun _ hj => (Option.some.inj hj).symm⟩ hst
      ((locks net hinv (Function.update_self ..)).mono ?_)
    rintro u ⟨hu,hub⟩
    exact ⟨.trans ⟨hinv,rfl,rfl⟩ hu,hub⟩
  | error e =>
    have hst : step s (.h3Failed k e) = some (s.setTask k ⟨a,.locking (.error (.streamIo e.toString))⟩) := by
      simp only [step,hk]
    have hinv := step_inv h hst
    refine .next (a := .h3Failed k e) ⟨hr,fun _ hj => (Option.some.inj hj).symm⟩ hst
      ((locks net hinv (Function.update_self ..)).mono ?_)
    rintro u ⟨hu,hub⟩
    exact ⟨.trans ⟨hinv,rfl,rfl⟩ hu,hub⟩

theorem completes (h : Inv s) {a : Addr} {p : TaskPhase} (hk : s.tasks k = some ⟨a,p⟩) :
    CanReach step (Label.runs net k)
      (fun t => Undisturbed s t ∧ t.batch = none ∧ ∃ res, t.tasks k = some ⟨a,.completed res⟩) s := by
  cases p with
  | connecting =>
    cases hr : net.connect k with
    | ok _ =>
      have hst : step s (.connected k) = some (s.setTask k ⟨a,.h3Setup⟩) := by simp only [step,hk]
      have hinv := step_inv h hst
      refine .next (a := .connected k) ⟨hr,fun _ hj => (Option.some.inj hj).symm⟩ hst
        ((setsUp net hinv (Function.update_self ..)).mono ?_)
      rintro u ⟨hu,hub⟩
      exact ⟨.trans ⟨hinv,rfl,rfl⟩ hu,hub⟩
    | error e =>
      have hst : step s (.connectFailed k e) = some (s.setTask k ⟨a,.locking (.error e)⟩) := by
        simp only [step,hk]
      have hinv := step_inv h hst
      refine .next (a := .connectFailed k e) ⟨hr,fun _ hj => (Option.some.inj hj).symm⟩ hst
        ((locks net hinv (Function.update_self ..)).mono ?_)
      rintro u ⟨hu,hub⟩
      exact ⟨.trans ⟨hinv,rfl,rfl⟩ hu,hub⟩
  | h3Setup => exact setsUp net h hk
  | locking res => exact locks net h hk
  | completed res =>
    refine (runs_empties net h).mono ?_
    rintro t ⟨ht,hb,htasks⟩
    exact ⟨ht,hb,res,htasks ▸ hk⟩

omit [DecidableEq Addr] [DecidableEq ι] in
theorem Inv.joined_task (h : Inv s) {i : ι} {a : Addr} {k : ℕ} (hj : s.joined i = some (a,k)) :
    ∃ p, s.tasks k = some ⟨a,p⟩ := by
  rcases h.senders.senders i a k hj with ⟨rfl,hw⟩ | ⟨b,hb,rfl,rfl,-⟩ | ⟨res,hk,-⟩
  · obtain ⟨ws,hm,-⟩ := mem_waitersAt.mp hw
    obtain ⟨p,hp,-⟩ := h.slots.slot a ws hm
    exact ⟨p,hp⟩
  · obtain ⟨-,-,res,hk,-⟩ := h.senders.batch b hb
    exact ⟨_,hk⟩
  · exact ⟨_,hk⟩

omit [DecidableEq Addr] [DecidableEq ι] in
/-- Once its task is over and nobody holds the mutex, a waiter has its answer. -/
theorem Inv.answered (h : Inv s) {i : ι} {a : Addr} {k : ℕ} (hj : s.joined i = some (a,k))
    (hb : s.batch = none) {res : PoolResult} (hk : s.tasks k = some ⟨a,.completed res⟩) :
    s.sent i = [waiterResult res] := by
  rcases h.senders.senders i a k hj with ⟨rfl,hw⟩ | ⟨b,hb',-⟩ | ⟨res',hk',hs⟩
  · obtain ⟨ws,hm,-⟩ := mem_waitersAt.mp hw
    obtain ⟨p,hp,hf⟩ := h.slots.slot a ws hm
    cases hk.symm.trans hp
    cases hf
  · cases hb.symm.trans hb'
  · cases hk.symm.trans hk'
    exact hs

/-- The task that a waiter has joined brings it its answer. -/
theorem task_answers (h : Inv s) {i : ι} {a : Addr} (hj : s.joined i = some (a,k)) :
    CanReach step (Label.runs net k) (fun t => Undisturbed s t ∧ ∃ res, t.sent i = [res]) s := by
  obtain ⟨p,hp⟩ := h.joined_task hj
  refine (completes net h hp).mono ?_
  rintro t ⟨ht,hb,res,hk⟩
  exact ⟨ht,_,ht.inv.answered (ht.joined ▸ hj) hb hk⟩

theorem answers (h : Inv s) {i : ι} {a : Addr} (hi : s.phase i = .waiting a) :
    CanReach step (Label.follows net) (fun t => Undisturbed s t ∧ ∃ res, t.sent i = [res]) s := by
  obtain ⟨k,hj⟩ := h.senders.blocked i a hi
  exact (task_answers net h hj).widen fun _ hl => hl.1

end GrpcQuic.Pool
