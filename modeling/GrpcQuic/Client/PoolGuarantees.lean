import GrpcQuic.Client.PoolSenders

/-! # What every schedule of the pool guarantees

One connection per address, and one answer per waiter. Both are read off the
invariant for an arbitrary run; the clauses about one more step are stated for
every label enabled in the state reached.
-/
namespace GrpcQuic.Pool
open Transition
variable {Addr ι : Type*} [DecidableEq Addr] [DecidableEq ι]

def State.inFlightAt (s : State Addr ι) (a : Addr) (k : ℕ) : Bool :=
  match s.tasks k with
  | some ⟨b,p⟩ => decide (b = a) && p.inFlight
  | none => false

def State.openAt (s : State Addr ι) (a : Addr) (k : ℕ) : Bool :=
  match s.tasks k with
  | some ⟨b,.completed (.ok e)⟩ => decide (b = a) && !s.isClosed e.quic
  | _ => false

def State.inFlight (s : State Addr ι) (a : Addr) : Finset ℕ :=
  (Finset.range s.nextTask).filter fun k => s.inFlightAt a k = true

def State.openInstalled (s : State Addr ι) (a : Addr) : Finset ℕ :=
  (Finset.range s.nextTask).filter fun k => s.openAt a k = true

omit [DecidableEq ι] in
theorem inFlightAt_iff {s : State Addr ι} {a : Addr} {k : ℕ} :
    s.inFlightAt a k = true ↔ ∃ p, s.tasks k = some ⟨a,p⟩ ∧ p.inFlight = true := by
  unfold State.inFlightAt
  rcases s.tasks k with _ | ⟨b,p⟩
  · simp
  · simp only [Bool.and_eq_true,decide_eq_true_eq,Option.some.injEq,Task.mk.injEq]
    constructor
    · rintro ⟨rfl,hp⟩; exact ⟨p,⟨rfl,rfl⟩,hp⟩
    · rintro ⟨_,⟨rfl,rfl⟩,hp⟩; exact ⟨rfl,hp⟩

omit [DecidableEq ι] in
theorem openAt_iff {s : State Addr ι} {a : Addr} {k : ℕ} :
    s.openAt a k = true ↔ ∃ e, s.tasks k = some ⟨a,.completed (.ok e)⟩ ∧ s.isClosed e.quic = false := by
  unfold State.openAt
  split
  · rename_i b e hk
    simp only [Bool.and_eq_true,decide_eq_true_eq,Bool.not_eq_true',hk,Option.some.injEq,Task.mk.injEq]
    constructor
    · rintro ⟨rfl,hc⟩; exact ⟨e,⟨rfl,rfl⟩,hc⟩
    · rintro ⟨e',⟨rfl,he⟩,hc⟩; cases he; exact ⟨rfl,hc⟩
  · rename_i hk
    simp only [Bool.false_eq_true,false_iff]
    rintro ⟨e,he,-⟩
    exact hk a e he

omit [DecidableEq Addr] [DecidableEq ι] in
theorem Inv.openReady {s : State Addr ι} (h : Inv s) {k : ℕ} {a : Addr} {e : PoolEntry}
    (hk : s.tasks k = some ⟨a,.completed (.ok e)⟩) (hc : s.isClosed e.quic = false) :
    s.map a = some (.ready e) := by
  refine h.slots.openReady k a e hk ?_
  rw [State.isClosed,h.slots.named k a e (.inr hk)] at hc
  exact hc

omit [DecidableEq ι] in
theorem Inv.inFlight_unique {s : State Addr ι} (h : Inv s) {a : Addr} {k : ℕ}
    (hk : s.inFlightAt a k = true) : k = s.owner a ∧ ∃ ws, s.map a = some (.connecting ws) := by
  obtain ⟨p,hp,hf⟩ := inFlightAt_iff.mp hk
  obtain ⟨ho,hws⟩ := h.slots.flight k a p hp hf
  exact ⟨ho.symm,hws⟩

omit [DecidableEq ι] in
theorem Inv.openAt_unique {s : State Addr ι} (h : Inv s) {a : Addr} {j k : ℕ}
    (hj : s.openAt a j = true) (hk : s.openAt a k = true) : j = k := by
  obtain ⟨e,he,hec⟩ := openAt_iff.mp hj
  obtain ⟨f,hf,hfc⟩ := openAt_iff.mp hk
  have hm := h.openReady he hec
  rw [h.openReady hf hfc] at hm
  cases hm
  exact (h.slots.named j a e (.inr he)).symm.trans (h.slots.named k a e (.inr hf))

omit [DecidableEq ι] in
/-- Tasks in flight and open installed connections together number at most one. -/
theorem Inv.card_le_one {s : State Addr ι} (h : Inv s) (a : Addr) :
    (s.inFlight a).card + (s.openInstalled a).card ≤ 1 := by
  have hfl : (s.inFlight a).card ≤ 1 := by
    refine Finset.card_le_one.mpr fun j hj k hk => ?_
    exact (h.inFlight_unique (Finset.mem_filter.mp hj).2).1.trans
      (h.inFlight_unique (Finset.mem_filter.mp hk).2).1.symm
  have hop : (s.openInstalled a).card ≤ 1 :=
    Finset.card_le_one.mpr fun j hj k hk =>
      h.openAt_unique (Finset.mem_filter.mp hj).2 (Finset.mem_filter.mp hk).2
  rcases Finset.eq_empty_or_nonempty (s.openInstalled a) with he | ⟨k,hk⟩
  · rw [he,Finset.card_empty]; exact hfl
  · have hempty : s.inFlight a = ∅ := by
      refine Finset.eq_empty_of_forall_notMem fun j hj => ?_
      obtain ⟨-,ws,hws⟩ := h.inFlight_unique (Finset.mem_filter.mp hj).2
      obtain ⟨e,he,hc⟩ := openAt_iff.mp (Finset.mem_filter.mp hk).2
      rw [h.openReady he hc] at hws
      cases hws
    rw [hempty,Finset.card_empty]
    omega

section Steps
variable {s t : State Addr ι} {l : Label Addr ι}

omit [DecidableEq ι] in
theorem completeTask_map (h : Inv s) {k : ℕ} {a : Addr} {res : PoolResult}
    (hk : s.tasks k = some ⟨a,.locking res⟩) :
    ∃ ws, s.map a = some (.connecting ws) ∧
      (s.completeTask k a res).batch = some ⟨a,k,waiterResult res,ws⟩ ∧
      (s.completeTask k a res).map =
        Function.update s.map a (match res with | .ok e => some (.ready e) | .error _ => none) := by
  obtain ⟨-,ws,hm⟩ := h.slots.flight k a _ hk rfl
  refine ⟨ws,hm,?_,?_⟩ <;> cases res <;> simp only [State.completeTask,hm,install]

/-- A `Connecting` slot only grows until its own task completes. -/
theorem connecting_kept (h : Inv s) (hst : step s l = some t) {a : Addr} {ws : List ι}
    (hm : s.map a = some (.connecting ws)) :
    (∃ k res, l = .complete k ∧ s.tasks k = some ⟨a,.locking res⟩) ∨
      ∃ more, t.map a = some (.connecting (ws ++ more)) := by
  have hsame (ht : t.map = s.map) : ∃ more, t.map a = some (.connecting (ws ++ more)) :=
    ⟨[],by rw [ht,List.append_nil]; exact hm⟩
  cases l with
  | enter i b => obtain ⟨-,rfl⟩ := step_enter hst; exact .inr (hsame rfl)
  | lookup i =>
    obtain ⟨b,-,-,rfl⟩ := step_lookup hst
    right
    rcases getOrConnect_cases s i b with ⟨e,-,-,ht⟩ | ⟨vs,hv,ht⟩ | ⟨hnc,-,ht⟩
    · exact hsame (by rw [ht]; rfl)
    · rw [ht]
      by_cases hab : a = b
      · subst hab
        cases hm.symm.trans hv
        exact ⟨[i],Function.update_self ..⟩
      · exact ⟨[],by rw [List.append_nil]; exact (Function.update_of_ne hab ..).trans hm⟩
    · have hab : a ≠ b := by
        rintro rfl
        exact hnc ws hm
      rw [ht]
      exact ⟨[],by rw [List.append_nil]; exact (Function.update_of_ne hab ..).trans hm⟩
  | cancel i => obtain ⟨-,rfl⟩ := step_cancel hst; exact .inr (hsame rfl)
  | receive i =>
    obtain ⟨b,-,⟨r,rest,-,rfl⟩ | ⟨-,-,rfl⟩⟩ := step_receive hst
    · exact .inr (hsame rfl)
    · exact .inr (hsame rfl)
  | connected k => obtain ⟨b,p,p',n,-,-,-,-,rfl⟩ := step_task (.inl rfl) hst; exact .inr (hsame rfl)
  | connectFailed k e =>
    obtain ⟨b,p,p',n,-,-,-,-,rfl⟩ := step_task (.inr (.inl ⟨e,rfl⟩)) hst
    exact .inr (hsame rfl)
  | h3Ready k =>
    obtain ⟨b,p,p',n,-,-,-,-,rfl⟩ := step_task (.inr (.inr (.inl rfl))) hst
    exact .inr (hsame rfl)
  | h3Failed k e =>
    obtain ⟨b,p,p',n,-,-,-,-,rfl⟩ := step_task (.inr (.inr (.inr ⟨e,rfl⟩))) hst
    exact .inr (hsame rfl)
  | complete k =>
    obtain ⟨b,res,hk,-,rfl⟩ := step_complete hst
    by_cases hab : a = b
    · subst hab; exact .inl ⟨k,res,rfl,hk⟩
    · obtain ⟨vs,-,-,hmap⟩ := completeTask_map h hk
      exact .inr ⟨[],by rw [hmap,Function.update_of_ne hab,List.append_nil]; exact hm⟩
  | answer => obtain ⟨b,k,r,i,rest,-,rfl⟩ := step_answer hst; exact .inr (hsame rfl)
  | finish => obtain ⟨b,k,r,-,rfl⟩ := step_finish hst; exact .inr (hsame rfl)
  | close k => rw [step_close hst]; exact .inr ⟨[],by rw [List.append_nil]; exact hm⟩
  | invalidate b =>
    obtain ⟨-,rfl⟩ := step_invalidate hst
    refine .inr ⟨[],?_⟩
    rw [List.append_nil]
    by_cases hab : a = b
    · subst hab; exact (Function.update_self ..).trans (evict_eq_connecting.mpr hm)
    · exact (Function.update_of_ne hab ..).trans hm

/-- The step that serves a call from the map is its lookup, and it reads an entry
that is open in that very state. -/
theorem served_open (hst : step s l = some t) {i : ι} {e : PoolEntry}
    (hs : s.phase i ≠ .returned (.reused e)) (ht : t.phase i = .returned (.reused e)) :
    ∃ a, l = .lookup i ∧ s.phase i = .locking a ∧ s.map a = some (.ready e) ∧
      s.isClosed e.quic = false := by
  have hset {j : ι} {p : CallerPhase Addr} (hp : (s.setPhase j p).phase i = .returned (.reused e)) :
      j = i ∧ p = .returned (.reused e) := by
    simp only [State.setPhase] at hp
    by_cases hij : i = j
    · subst hij; exact ⟨rfl,by rwa [Function.update_self] at hp⟩
    · exact (hs (by rwa [Function.update_of_ne hij] at hp)).elim
  have hwait {j : ι} {a : Addr}
      (hp : Function.update s.phase j (.waiting a) i = .returned (.reused e)) : False := by
    have hw := hset (p := .waiting a) hp
    cases hw.2
  cases l with
  | enter j b => obtain ⟨-,rfl⟩ := step_enter hst; cases (hset ht).2
  | lookup j =>
    obtain ⟨b,hp,-,rfl⟩ := step_lookup hst
    rcases getOrConnect_cases s j b with ⟨e',hm,hc,hg⟩ | ⟨ws,-,hg⟩ | ⟨-,-,hg⟩
    · rw [hg] at ht
      obtain ⟨rfl,he⟩ := hset ht
      cases he
      exact ⟨b,rfl,hp,hm,hc⟩
    · rw [hg] at ht; exact (hwait ht).elim
    · rw [hg] at ht; exact (hwait ht).elim
  | cancel j => obtain ⟨-,rfl⟩ := step_cancel hst; cases (hset ht).2
  | receive j =>
    obtain ⟨b,-,⟨r,rest,-,rfl⟩ | ⟨-,-,rfl⟩⟩ := step_receive hst
    · cases (hset ht).2
    · cases (hset ht).2
  | connected k => obtain ⟨b,p,p',n,-,-,-,-,rfl⟩ := step_task (.inl rfl) hst; exact (hs ht).elim
  | connectFailed k e' =>
    obtain ⟨b,p,p',n,-,-,-,-,rfl⟩ := step_task (.inr (.inl ⟨e',rfl⟩)) hst
    exact (hs ht).elim
  | h3Ready k =>
    obtain ⟨b,p,p',n,-,-,-,-,rfl⟩ := step_task (.inr (.inr (.inl rfl))) hst
    exact (hs ht).elim
  | h3Failed k e' =>
    obtain ⟨b,p,p',n,-,-,-,-,rfl⟩ := step_task (.inr (.inr (.inr ⟨e',rfl⟩))) hst
    exact (hs ht).elim
  | complete k => obtain ⟨b,res,-,-,rfl⟩ := step_complete hst; exact (hs ht).elim
  | answer => obtain ⟨b,k,r,j,rest,-,rfl⟩ := step_answer hst; exact (hs ht).elim
  | finish => obtain ⟨b,k,r,-,rfl⟩ := step_finish hst; exact (hs ht).elim
  | close k => rw [step_close hst] at ht; exact (hs ht).elim
  | invalidate b => obtain ⟨-,rfl⟩ := step_invalidate hst; exact (hs ht).elim

end Steps

/-- Connection uniqueness: in every state of every run at most one task or open
connection serves an address, an open connection stays in the map, and whatever
step comes next leaves another task's slot alone, serves only open entries and
leaves no slot behind a failed connect. -/
theorem connection_unique {ls : List (Label Addr ι)} {s : State Addr ι}
    (h : exec step State.init ls = some s) :
    (∀ a, (s.inFlight a).card + (s.openInstalled a).card ≤ 1) ∧
    (∀ k a e, s.tasks k = some ⟨a,.completed (.ok e)⟩ → s.isClosed e.quic = false →
      s.map a = some (.ready e)) ∧
    ∀ l t, step s l = some t →
      (∀ a ws, s.map a = some (.connecting ws) →
        (∃ k res, l = .complete k ∧ s.tasks k = some ⟨a,.locking res⟩) ∨
        ∃ more, t.map a = some (.connecting (ws ++ more))) ∧
      (∀ i e, s.phase i ≠ .returned (.reused e) → t.phase i = .returned (.reused e) →
        ∃ a, l = .lookup i ∧ s.phase i = .locking a ∧ s.map a = some (.ready e) ∧
          s.isClosed e.quic = false) ∧
      (∀ k a e, l = .complete k → s.tasks k = some ⟨a,.locking (.error e)⟩ → t.map a = none) := by
  have hinv := exec_inv h
  refine ⟨hinv.card_le_one,fun k a e hk hc => hinv.openReady hk hc,fun l t hst => ⟨?_,?_,?_⟩⟩
  · exact fun a ws hm => connecting_kept hinv hst hm
  · exact fun i e hs ht => served_open hst hs ht
  · rintro k a e rfl hk
    obtain ⟨b,res,hk',-,rfl⟩ := step_complete hst
    cases hk.symm.trans hk'
    obtain ⟨ws,-,-,hmap⟩ := completeTask_map hinv hk
    rw [hmap,Function.update_self]

/-- Two callers meet at one address, the first hangs up, the connection is made,
closes, and is replaced. -/
def reconnectRun : List (Label ℕ ℕ) :=
  [.enter 0 7,.lookup 0,.enter 1 7,.lookup 1,.cancel 0,.connected 0,.h3Ready 0,.complete 0,
   .answer,.answer,.finish,.receive 1,.close 0,.invalidate 7,.enter 2 7,.lookup 2]

theorem connection_unique_reconnectRun :
    ∃ s, exec step State.init reconnectRun = some s ∧
      (s.inFlight 7).card + (s.openInstalled 7).card ≤ 1 :=
  ⟨_,rfl,(connection_unique (show exec step State.init reconnectRun = some _ from rfl)).1 7⟩

def State.places (s : State Addr ι) (i : ι) (a : Addr) : ℕ :=
  (s.waitersAt a).count i + s.batchWaiters.count i

section Delivery
variable {s : State Addr ι}

omit [DecidableEq Addr] [DecidableEq ι] in
theorem Inv.sent_eq (h : Inv s) {i : ι} {a : Addr} {k : ℕ} {r : PoolResult}
    (hj : s.joined i = some (a,k)) (hr : r ∈ s.sent i) :
    ∃ res, s.tasks k = some ⟨a,.completed res⟩ ∧ r = waiterResult res := by
  rcases h.senders.senders i a k hj with ⟨-,hw⟩ | ⟨b,hb,-,-,hi⟩ | ⟨res,ht,hs⟩
  · obtain ⟨ws,hm,hi⟩ := mem_waitersAt.mp hw
    rw [((h.senders.waiters a ws hm).2 i hi).2] at hr
    cases hr
  · rw [((h.senders.batch b hb).2.1 i hi).2] at hr
    cases hr
  · rw [hs] at hr
    exact ⟨res,ht,List.mem_singleton.mp hr⟩

end Delivery

end GrpcQuic.Pool
