import GrpcQuic.Client.PoolSlots

/-! # Where the senders of blocked callers are

A caller that has enqueued its sender is in the waiter list of the slot whose
task it joined, in the batch that task is answering, or has been answered once
with what the task produced.
-/
namespace GrpcQuic.Pool
open Transition
variable {Addr ι : Type*} [DecidableEq Addr] [DecidableEq ι]

structure SenderInv (s : State Addr ι) : Prop where
  unjoined : ∀ i, s.phase i = .idle ∨ (∃ a, s.phase i = .locking a) → s.joined i = none
  blocked : ∀ i a, s.phase i = .waiting a → ∃ k, s.joined i = some (a,k)
  unsent : ∀ i, s.joined i = none → s.sent i = []
  waiters : ∀ a ws, s.map a = some (.connecting ws) →
    ws.Nodup ∧ ∀ i ∈ ws, s.joined i = some (a,s.owner a) ∧ s.sent i = []
  batch : ∀ b, s.batch = some b → b.waiters.Nodup ∧
    (∀ i ∈ b.waiters, s.joined i = some (b.addr,b.task) ∧ s.sent i = []) ∧
    ∃ res, s.tasks b.task = some ⟨b.addr,.completed res⟩ ∧ b.reply = waiterResult res
  senders : ∀ i a k, s.joined i = some (a,k) →
    (k = s.owner a ∧ i ∈ s.waitersAt a) ∨
    (∃ b, s.batch = some b ∧ b.addr = a ∧ b.task = k ∧ i ∈ b.waiters) ∨
    ∃ res, s.tasks k = some ⟨a,.completed res⟩ ∧ s.sent i = [waiterResult res]
  replies : ∀ i r, s.phase i = .returned (.answered r) → (∃ a k, s.joined i = some (a,k)) ∧ r ∈ s.sent i
  noFallback : ∀ i, s.phase i ≠ .returned .taskCancelled

omit [DecidableEq Addr] [DecidableEq ι] in
theorem senderInv_init : SenderInv (State.init : State Addr ι) := by
  constructor <;> simp [State.init]

omit [DecidableEq Addr] [DecidableEq ι] in
theorem mem_waitersAt {s : State Addr ι} {i : ι} {a : Addr} :
    i ∈ s.waitersAt a ↔ ∃ ws, s.map a = some (.connecting ws) ∧ i ∈ ws := by
  unfold State.waitersAt
  rcases s.map a with _ | ⟨ws⟩ | ⟨e⟩ <;> simp

omit [DecidableEq Addr] [DecidableEq ι] in
theorem mem_batchWaiters {s : State Addr ι} {i : ι} :
    i ∈ s.batchWaiters ↔ ∃ b, s.batch = some b ∧ i ∈ b.waiters := by
  unfold State.batchWaiters
  cases s.batch <;> simp

section Preservation
variable {s : State Addr ι}

omit [DecidableEq Addr] in
theorem SenderInv.setPhase (h : SenderInv s) {i : ι} {p : CallerPhase Addr}
    (hun : p = .idle ∨ (∃ a, p = .locking a) → s.joined i = none)
    (hbl : ∀ a, p ≠ .waiting a)
    (hre : ∀ r, p = .returned (.answered r) → (∃ a k, s.joined i = some (a,k)) ∧ r ∈ s.sent i)
    (hno : p ≠ .returned .taskCancelled) : SenderInv (s.setPhase i p) := by
  have hself : Function.update s.phase i p i = p := Function.update_self ..
  refine ⟨?_,?_,h.unsent,h.waiters,h.batch,h.senders,?_,?_⟩ <;>
    simp only [State.setPhase] <;> intro j <;> by_cases hj : j = i
  · subst hj; rw [hself]; exact hun
  · rw [Function.update_of_ne hj]; exact h.unjoined j
  · subst hj; rw [hself]; exact fun a ha => (hbl a ha).elim
  · rw [Function.update_of_ne hj]; exact h.blocked j
  · subst hj; rw [hself]; exact hre
  · rw [Function.update_of_ne hj]; exact h.replies j
  · subst hj; rw [hself]; exact hno
  · rw [Function.update_of_ne hj]; exact h.noFallback j

omit [DecidableEq Addr] in
/-- A blocked caller whose channel is empty still has a sender. -/
theorem SenderInv.senderHeld (h : SenderInv s) {i : ι} {a : Addr} (hp : s.phase i = .waiting a)
    (hs : s.sent i = []) : s.senderHeld i a = true := by
  obtain ⟨k,hj⟩ := h.blocked i a hp
  unfold State.senderHeld
  rcases h.senders i a k hj with ⟨-,hw⟩ | ⟨b,hb,-,-,hw⟩ | ⟨res,-,hr⟩
  · simp [hw]
  · simp [mem_batchWaiters.mpr ⟨b,hb,hw⟩]
  · simp [hs] at hr

omit [DecidableEq Addr] [DecidableEq ι] in
theorem SenderInv.setTask (h : SenderInv s) {k : ℕ} {a : Addr} {p : TaskPhase} (task : Task Addr)
    (n : ℕ) (hk : s.tasks k = some ⟨a,p⟩) (hp : p.inFlight = true) :
    SenderInv { s.setTask k task with connectionsTotal := n } := by
  have hdone {j : ℕ} {a' : Addr} {res : PoolResult} (hj : s.tasks j = some ⟨a',.completed res⟩) :
      (s.setTask k task).tasks j = some ⟨a',.completed res⟩ := by
    have hne : j ≠ k := by
      rintro rfl
      rw [hk] at hj
      cases hj
      cases hp
    exact (Function.update_of_ne hne ..).trans hj
  refine ⟨h.unjoined,h.blocked,h.unsent,h.waiters,?_,?_,h.replies,h.noFallback⟩
  · intro b hb
    obtain ⟨hn,hw,res,ht,hr⟩ := h.batch b hb
    exact ⟨hn,hw,res,hdone ht,hr⟩
  · intro i a' j hj
    rcases h.senders i a' j hj with hw | hb | ⟨res,ht,hr⟩
    · exact .inl hw
    · exact .inr (.inl hb)
    · exact .inr (.inr ⟨res,hdone ht,hr⟩)

omit [DecidableEq Addr] in
/-- A caller that has joined nothing yet blocks behind the task `k`. -/
theorem SenderInv.block (h : SenderInv s) {t : State Addr ι} {i : ι} {a : Addr} {k : ℕ}
    (hi : s.joined i = none) (hphase : t.phase = Function.update s.phase i (.waiting a))
    (hjoined : t.joined = Function.update s.joined i (some (a,k))) (hsent : t.sent = s.sent)
    (hbatch : t.batch = s.batch) (htasks : ∀ j task, s.tasks j = some task → t.tasks j = some task)
    (hwaiters : ∀ a' ws, t.map a' = some (.connecting ws) →
      ws.Nodup ∧ ∀ j ∈ ws, t.joined j = some (a',t.owner a') ∧ t.sent j = [])
    (hnew : k = t.owner a ∧ i ∈ t.waitersAt a)
    (hold : ∀ j a', s.joined j = some (a',s.owner a') → j ∈ s.waitersAt a' →
      s.owner a' = t.owner a' ∧ j ∈ t.waitersAt a') : SenderInv t := by
  have hne {j : ι} {v : Addr × ℕ} (hj : s.joined j = some v) : j ≠ i := by
    rintro rfl
    cases hi.symm.trans hj
  have hkeep {j : ι} {v : Addr × ℕ} (hj : s.joined j = some v) : t.joined j = some v := by
    rw [hjoined,Function.update_of_ne (hne hj),hj]
  refine ⟨?_,?_,?_,hwaiters,?_,?_,?_,?_⟩
  · intro j hj
    by_cases hji : j = i
    · subst hji; simp [hphase] at hj
    · rw [hphase,Function.update_of_ne hji] at hj
      rw [hjoined,Function.update_of_ne hji]
      exact h.unjoined j hj
  · intro j a' hj
    by_cases hji : j = i
    · subst hji
      rw [hphase,Function.update_self] at hj
      cases hj
      exact ⟨k,by rw [hjoined,Function.update_self]⟩
    · rw [hphase,Function.update_of_ne hji] at hj
      obtain ⟨k',hk⟩ := h.blocked j a' hj
      exact ⟨k',hkeep hk⟩
  · intro j hj
    by_cases hji : j = i
    · subst hji; simp [hjoined] at hj
    · rw [hjoined,Function.update_of_ne hji] at hj
      rw [hsent]
      exact h.unsent j hj
  · intro b hb
    obtain ⟨hn,hw,res,ht,hr⟩ := h.batch b (hbatch ▸ hb)
    exact ⟨hn,fun j hj => ⟨hkeep (hw j hj).1,hsent ▸ (hw j hj).2⟩,res,htasks _ _ ht,hr⟩
  · intro j a' k' hj
    by_cases hji : j = i
    · subst hji
      rw [hjoined,Function.update_self] at hj
      cases hj
      exact .inl hnew
    · rw [hjoined,Function.update_of_ne hji] at hj
      rcases h.senders j a' k' hj with ⟨rfl,hw⟩ | ⟨b,hb,hrest⟩ | ⟨res,ht,hr⟩
      · exact .inl (hold j a' hj hw)
      · exact .inr (.inl ⟨b,hbatch ▸ hb,hrest⟩)
      · exact .inr (.inr ⟨res,htasks _ _ ht,hsent ▸ hr⟩)
  · intro j r hj
    by_cases hji : j = i
    · subst hji; simp [hphase] at hj
    · rw [hphase,Function.update_of_ne hji] at hj
      obtain ⟨⟨a',k',hk⟩,hr⟩ := h.replies j r hj
      exact ⟨⟨a',k',hkeep hk⟩,hsent ▸ hr⟩
  · intro j
    rw [hphase]
    by_cases hji : j = i
    · subst hji; simp
    · rw [Function.update_of_ne hji]; exact h.noFallback j

/-- A caller that finds a `Connecting` slot joins its waiters. -/
theorem SenderInv.join (h : SenderInv s) {i : ι} {a : Addr} {ws : List ι}
    (hi : s.joined i = none) (hm : s.map a = some (.connecting ws)) :
    SenderInv { s with
      map := Function.update s.map a (some (.connecting (ws ++ [i])))
      phase := Function.update s.phase i (.waiting a)
      joined := Function.update s.joined i (some (a,s.owner a)) } := by
  obtain ⟨hnd,hws⟩ := h.waiters a ws hm
  have hnot : i ∉ ws := by
    intro hmem
    rw [(hws i hmem).1] at hi
    cases hi
  have hkeep {j : ι} {v : Addr × ℕ} (hj : s.joined j = some v) :
      Function.update s.joined i (some (a,s.owner a)) j = some v := by
    have hne : j ≠ i := by
      rintro rfl
      rw [hi] at hj
      cases hj
    rw [Function.update_of_ne hne,hj]
  refine h.block hi rfl rfl rfl rfl (fun _ _ hj => hj) ?_ ⟨rfl,?_⟩ ?_
  · intro a' vs hv
    dsimp only at hv ⊢
    by_cases ha : a' = a
    · subst ha
      rw [Function.update_self] at hv
      cases hv
      refine ⟨hnd.append (List.nodup_singleton i) (by simpa using hnot),?_⟩
      intro j hj
      rcases List.mem_append.mp hj with hj | hj
      · exact ⟨hkeep (hws j hj).1,(hws j hj).2⟩
      · cases List.mem_singleton.mp hj
        exact ⟨Function.update_self ..,h.unsent _ hi⟩
    · rw [Function.update_of_ne ha] at hv
      obtain ⟨hn,hvs⟩ := h.waiters a' vs hv
      exact ⟨hn,fun j hj => ⟨hkeep (hvs j hj).1,(hvs j hj).2⟩⟩
  · exact mem_waitersAt.mpr ⟨_,Function.update_self ..,by simp⟩
  · intro j a' _ hw
    refine ⟨rfl,mem_waitersAt.mpr ?_⟩
    obtain ⟨vs,hv,hmem⟩ := mem_waitersAt.mp hw
    by_cases ha : a' = a
    · subst ha
      cases hm.symm.trans hv
      exact ⟨_,Function.update_self ..,List.mem_append_left _ hmem⟩
    · exact ⟨vs,by simpa only [Function.update_of_ne ha] using hv,hmem⟩

/-- A caller that finds no live slot becomes the first waiter of a new task. -/
theorem SenderInv.spawn (hsl : SlotInv s) (h : SenderInv s) {i : ι} {a : Addr}
    (hi : s.joined i = none) (hnc : ∀ ws, s.map a ≠ some (.connecting ws)) :
    SenderInv { s with
      map := Function.update s.map a (some (.connecting [i]))
      tasks := Function.update s.tasks s.nextTask (some ⟨a,.connecting⟩)
      nextTask := s.nextTask + 1
      owner := Function.update s.owner a s.nextTask
      phase := Function.update s.phase i (.waiting a)
      joined := Function.update s.joined i (some (a,s.nextTask)) } := by
  refine h.block hi rfl rfl rfl rfl ?_ ?_ ⟨by simp,?_⟩ ?_
  · intro j task hj
    have hne : j ≠ s.nextTask := by
      rintro rfl
      simp [hsl.fresh _ le_rfl] at hj
    exact (Function.update_of_ne hne ..).trans hj
  · intro a' vs hv
    dsimp only at hv ⊢
    by_cases ha : a' = a
    · subst ha
      rw [Function.update_self] at hv
      cases hv
      refine ⟨List.nodup_singleton i,?_⟩
      intro j hj
      cases List.mem_singleton.mp hj
      rw [Function.update_self,Function.update_self]
      exact ⟨rfl,h.unsent _ hi⟩
    · rw [Function.update_of_ne ha] at hv ⊢
      obtain ⟨hn,hvs⟩ := h.waiters a' vs hv
      refine ⟨hn,fun j hj => ⟨?_,(hvs j hj).2⟩⟩
      have hne : j ≠ i := by
        rintro rfl
        cases hi.symm.trans (hvs j hj).1
      rw [Function.update_of_ne hne]
      exact (hvs j hj).1
  · exact mem_waitersAt.mpr ⟨_,Function.update_self ..,by simp⟩
  · intro j a' _ hw
    obtain ⟨vs,hv,hmem⟩ := mem_waitersAt.mp hw
    have ha : a' ≠ a := by
      rintro rfl
      exact hnc vs hv
    refine ⟨(Function.update_of_ne ha ..).symm,mem_waitersAt.mpr ⟨vs,?_,hmem⟩⟩
    simpa only [Function.update_of_ne ha] using hv

omit [DecidableEq ι] in
/-- The whole waiter list of the completing task's own slot becomes its batch. -/
theorem SenderInv.completeTask (hsl : SlotInv s) (h : SenderInv s) {k : ℕ} {a : Addr}
    {res : PoolResult} (hk : s.tasks k = some ⟨a,.locking res⟩) (hb : s.batch = none) :
    SenderInv (s.completeTask k a res) := by
  obtain ⟨ho,ws,hm⟩ := hsl.flight k a _ hk rfl
  obtain ⟨hnd,hws⟩ := h.waiters a ws hm
  have hmap : (s.completeTask k a res).map = Function.update s.map a
      (match res with | .ok e => some (.ready e) | .error _ => none) := by
    cases res <;> simp only [State.completeTask,hm,install]
  have hbatch : (s.completeTask k a res).batch = some ⟨a,k,waiterResult res,ws⟩ := by
    cases res <;> simp only [State.completeTask,hm,install]
  have htasks : (s.completeTask k a res).tasks = Function.update s.tasks k (some ⟨a,.completed res⟩) := rfl
  refine ⟨h.unjoined,h.blocked,h.unsent,?_,?_,?_,h.replies,h.noFallback⟩
  · intro a' vs hv
    rw [hmap] at hv
    by_cases ha : a' = a
    · subst ha; cases res <;> simp at hv
    · exact h.waiters a' vs (by rwa [Function.update_of_ne ha] at hv)
  · intro b hb'
    cases hbatch.symm.trans hb'
    refine ⟨hnd,?_,res,by rw [htasks,Function.update_self],rfl⟩
    intro i hi
    rw [← ho]
    exact hws i hi
  · intro i a' j hj
    rcases h.senders i a' j hj with ⟨hj',hw⟩ | ⟨b,hb',-⟩ | ⟨res',ht,hr⟩
    · obtain ⟨vs,hv,hmem⟩ := mem_waitersAt.mp hw
      by_cases ha : a' = a
      · subst ha
        cases hm.symm.trans hv
        exact .inr (.inl ⟨_,hbatch,rfl,(hj'.trans ho).symm,hmem⟩)
      · refine .inl ⟨hj',mem_waitersAt.mpr ⟨vs,?_,hmem⟩⟩
        rw [hmap,Function.update_of_ne ha]
        exact hv
    · rw [hb] at hb'; cases hb'
    · refine .inr (.inr ⟨res',?_,hr⟩)
      have hne : j ≠ k := by
        rintro rfl
        rw [hk] at ht
        cases ht
      rw [htasks,Function.update_of_ne hne]
      exact ht

omit [DecidableEq Addr] in
/-- Sending to the head of the batch answers a caller that had no answer yet. -/
theorem SenderInv.answer (hsl : SlotInv s) (h : SenderInv s) {k : ℕ} {a : Addr} {r : PoolResult}
    {i : ι} {rest : List ι} (hb : s.batch = some ⟨a,k,r,i :: rest⟩) :
    SenderInv { s with
      sent := Function.update s.sent i (s.sent i ++ [r])
      batch := some ⟨a,k,r,rest⟩ } := by
  obtain ⟨hnd,hw,res,ht,hr⟩ := h.batch _ hb
  dsimp only at hnd hw ht hr
  obtain ⟨hji,hsi⟩ := hw i List.mem_cons_self
  obtain ⟨hnot,hnd'⟩ := List.nodup_cons.mp hnd
  have hne {a' : Addr} {ws : List ι} (hm : s.map a' = some (.connecting ws)) {j : ι} (hj : j ∈ ws) :
      j ≠ i := by
    rintro rfl
    have hjo := ((h.waiters a' ws hm).2 j hj).1
    obtain ⟨p,hp,hf⟩ := hsl.slot a' ws hm
    rw [hji] at hjo
    cases hjo
    rw [ht] at hp
    cases hp
    cases hf
  refine ⟨h.unjoined,h.blocked,?_,?_,?_,?_,?_,h.noFallback⟩
  · intro j hj
    dsimp only at hj ⊢
    have hjne : j ≠ i := by
      rintro rfl
      rw [hji] at hj
      cases hj
    rw [Function.update_of_ne hjne]
    exact h.unsent j hj
  · intro a' ws hm
    obtain ⟨hn,hws⟩ := h.waiters a' ws hm
    refine ⟨hn,fun j hj => ⟨(hws j hj).1,?_⟩⟩
    dsimp only
    rw [Function.update_of_ne (hne hm hj)]
    exact (hws j hj).2
  · intro b hb'
    cases hb'
    refine ⟨hnd',fun j hj => ?_,res,ht,hr⟩
    have hjne : j ≠ i := by
      rintro rfl
      exact hnot hj
    dsimp only
    rw [Function.update_of_ne hjne]
    exact hw j (List.mem_cons_of_mem _ hj)
  · intro j a' k' hj
    by_cases hjne : j = i
    · subst hjne
      cases hji.symm.trans hj
      refine .inr (.inr ⟨res,ht,?_⟩)
      dsimp only
      rw [Function.update_self,hsi,hr]
      rfl
    · rcases h.senders j a' k' hj with hw' | ⟨b,hb',ha,hk,hmem⟩ | ⟨res',ht',hr'⟩
      · exact .inl hw'
      · cases hb.symm.trans hb'
        refine .inr (.inl ⟨_,rfl,ha,hk,?_⟩)
        rcases List.mem_cons.mp hmem with rfl | hmem
        · exact (hjne rfl).elim
        · exact hmem
      · refine .inr (.inr ⟨res',ht',?_⟩)
        dsimp only
        rw [Function.update_of_ne hjne]
        exact hr'
  · intro j r' hj
    obtain ⟨hjo,hmem⟩ := h.replies j r' hj
    refine ⟨hjo,?_⟩
    dsimp only
    by_cases hjne : j = i
    · subst hjne
      rw [Function.update_self]
      exact List.mem_append_left _ hmem
    · rw [Function.update_of_ne hjne]
      exact hmem

omit [DecidableEq Addr] [DecidableEq ι] in
theorem SenderInv.finish (h : SenderInv s) {k : ℕ} {a : Addr} {r : PoolResult}
    (hb : s.batch = some ⟨a,k,r,[]⟩) : SenderInv { s with batch := none } := by
  refine ⟨h.unjoined,h.blocked,h.unsent,h.waiters,by simp,?_,h.replies,h.noFallback⟩
  intro i a' k' hj
  rcases h.senders i a' k' hj with hw | ⟨b,hb',-,-,hmem⟩ | hr
  · exact .inl hw
  · cases hb.symm.trans hb'
    simp at hmem
  · exact .inr (.inr hr)

omit [DecidableEq ι] in
theorem SenderInv.invalidate (h : SenderInv s) (a : Addr) :
    SenderInv { s with map := Function.update s.map a (evict s.isClosed (s.map a)) } := by
  refine ⟨h.unjoined,h.blocked,h.unsent,?_,h.batch,?_,h.replies,h.noFallback⟩
  · intro a' ws hm
    exact h.waiters a' ws (map_evict_connecting.mp hm)
  · intro i a' k hj
    rcases h.senders i a' k hj with ⟨hk,hw⟩ | hb | hr
    · obtain ⟨ws,hm,hmem⟩ := mem_waitersAt.mp hw
      exact .inl ⟨hk,mem_waitersAt.mpr ⟨ws,map_evict_connecting.mpr hm,hmem⟩⟩
    · exact .inr (.inl hb)
    · exact .inr (.inr hr)

theorem step_senderInv {l : Label Addr ι} {t : State Addr ι} (hsl : SlotInv s) (h : SenderInv s)
    (hst : step s l = some t) : SenderInv t := by
  cases l with
  | enter i a =>
    obtain ⟨hp,rfl⟩ := step_enter hst
    exact h.setPhase (fun _ => h.unjoined i (.inl hp)) (by simp) (by simp) (by simp)
  | lookup i =>
    obtain ⟨a,hp,-,rfl⟩ := step_lookup hst
    have hi := h.unjoined i (.inr ⟨a,hp⟩)
    rcases getOrConnect_cases s i a with ⟨e,-,-,ht⟩ | ⟨ws,hm,ht⟩ | ⟨hnc,-,ht⟩
    · rw [ht]; exact h.setPhase (by simp) (by simp) (by simp) (by simp)
    · rw [ht]; exact h.join hi hm
    · rw [ht]; exact SenderInv.spawn hsl h hi hnc
  | cancel i =>
    obtain ⟨-,rfl⟩ := step_cancel hst
    exact h.setPhase (by simp) (by simp) (by simp) (by simp)
  | receive i =>
    obtain ⟨a,hp,⟨r,rest,hs,rfl⟩ | ⟨hs,hheld,-⟩⟩ := step_receive hst
    · obtain ⟨k,hj⟩ := h.blocked i a hp
      refine h.setPhase (by simp) (by simp) ?_ (by simp)
      intro r' hr'
      cases hr'
      exact ⟨⟨a,k,hj⟩,by simp [hs]⟩
    · rw [h.senderHeld hp hs] at hheld
      cases hheld
  | connected k =>
    obtain ⟨a,p,p',n,hk,hp,-,-,rfl⟩ := step_task (.inl rfl) hst
    exact h.setTask _ n hk hp
  | connectFailed k e =>
    obtain ⟨a,p,p',n,hk,hp,-,-,rfl⟩ := step_task (.inr (.inl ⟨e,rfl⟩)) hst
    exact h.setTask _ n hk hp
  | h3Ready k =>
    obtain ⟨a,p,p',n,hk,hp,-,-,rfl⟩ := step_task (.inr (.inr (.inl rfl))) hst
    exact h.setTask _ n hk hp
  | h3Failed k e =>
    obtain ⟨a,p,p',n,hk,hp,-,-,rfl⟩ := step_task (.inr (.inr (.inr ⟨e,rfl⟩))) hst
    exact h.setTask _ n hk hp
  | complete k =>
    obtain ⟨a,res,hk,hb,rfl⟩ := step_complete hst
    exact SenderInv.completeTask hsl h hk hb
  | answer =>
    obtain ⟨a,k,r,i,rest,hb,rfl⟩ := step_answer hst
    exact SenderInv.answer hsl h hb
  | finish => obtain ⟨a,k,r,hb,rfl⟩ := step_finish hst; exact h.finish hb
  | close k =>
    rw [step_close hst]
    exact ⟨h.1,h.2,h.3,h.4,h.5,h.6,h.7,h.8⟩
  | invalidate a => obtain ⟨-,rfl⟩ := step_invalidate hst; exact h.invalidate a

end Preservation

structure Inv (s : State Addr ι) : Prop where
  slots : SlotInv s
  senders : SenderInv s

theorem step_inv {s t : State Addr ι} {l : Label Addr ι} (h : Inv s) (hst : step s l = some t) : Inv t :=
  ⟨step_slotInv h.slots hst,step_senderInv h.slots h.senders hst⟩

theorem exec_inv {ls : List (Label Addr ι)} {s : State Addr ι}
    (h : exec step State.init ls = some s) : Inv s :=
  exec_invariant (fun _ _ _ hs hst => step_inv hs hst) ⟨slotInv_init,senderInv_init⟩ h

end GrpcQuic.Pool
