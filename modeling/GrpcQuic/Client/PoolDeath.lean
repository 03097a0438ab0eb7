import GrpcQuic.Client.PoolGuarantees

/-! # Connect tasks that die

A connect task may be dropped at any of its await points. The senders of its
waiters live in the map and not in the task, so the death frees none of them: the
pool goes on as if the task were only late.
-/
namespace GrpcQuic.Pool
open Transition
variable {Addr ι : Type*}

structure Mortal (Addr ι : Type*) where
  pool : State Addr ι
  dead : ℕ → Bool

def Mortal.init : Mortal Addr ι := ⟨.init,fun _ => false⟩

inductive MortalLabel (Addr ι : Type*) where
  | act (l : Label Addr ι)
  | die (k : ℕ)

variable [DecidableEq Addr] [DecidableEq ι]

/-- A task answers its waiters without an await, so it dies before its locked
section or not at all. -/
def Mortal.step (s : Mortal Addr ι) : MortalLabel Addr ι → Option (Mortal Addr ι)
  | .act l =>
    if l.connectTask.any s.dead then none
    else (Pool.step s.pool l).map fun pool => { s with pool }
  | .die k =>
    match s.pool.tasks k with
    | some task =>
      if task.phase.inFlight && !s.dead k then some { s with dead := Function.update s.dead k true }
      else none
    | none => none

/-- Every `Connecting` slot has a connect task in flight. -/
def Attended (s : Mortal Addr ι) : Prop :=
  ∀ a ws, s.pool.map a = some (.connecting ws) →
    ∃ k, s.pool.inFlightAt a k = true ∧ s.dead k = false

structure MortalInv (s : Mortal Addr ι) : Prop where
  pool : Inv s.pool
  dead : ∀ k, s.dead k = true → ∃ a, s.pool.inFlightAt a k = true

variable {s t : Mortal Addr ι} {p q : State Addr ι} {k : ℕ} {a : Addr} {i : ι}

omit [DecidableEq ι] in
theorem mortalInv_init : MortalInv (Mortal.init : Mortal Addr ι) :=
  ⟨⟨slotInv_init,senderInv_init⟩,nofun⟩

theorem step_tasks (h : Inv p) {l : Label Addr ι} (hst : step p l = some q) (hl : l.connectTask ≠ some k)
    {task : Task Addr} (hk : p.tasks k = some task) : q.tasks k = some task := by
  obtain ⟨b,p⟩ := task
  refine step_task_kept hst (h.slots.fresh _ le_rfl) (fun p' hm => hl ?_) hk
  cases hm <;> rfl

theorem step_joined (h : Inv p) {l : Label Addr ι} (hst : step p l = some q) {v : Addr × ℕ}
    (hj : p.joined i = some v) : q.joined i = some v := by
  rcases (step_change hst).joined with hsame | ⟨j,b,k,-,hp,hjoin⟩
  · rw [hsame]
    exact hj
  · have hne : i ≠ j := by
      rintro rfl
      cases (h.senders.unjoined i (.inr ⟨b,hp⟩)).symm.trans hj
    rw [hjoin]
    exact (Function.update_of_ne hne ..).trans hj

theorem mortal_cases {l : MortalLabel Addr ι} (hst : s.step l = some t) :
    (∃ m, l = .act m ∧ m.connectTask.any s.dead = false ∧ step s.pool m = some t.pool ∧ t.dead = s.dead) ∨
    (∃ k b p, l = .die k ∧ s.pool.tasks k = some ⟨b,p⟩ ∧ p.inFlight = true ∧ s.dead k = false ∧
      t = { s with dead := Function.update s.dead k true }) := by
  cases l with
  | act m =>
    simp only [Mortal.step] at hst
    split at hst
    · cases hst
    · rename_i hm
      obtain ⟨pool,hpool,rfl⟩ := Option.map_eq_some_iff.mp hst
      exact .inl ⟨m,rfl,Bool.eq_false_iff.mpr hm,hpool,rfl⟩
  | die k =>
    simp only [Mortal.step] at hst
    split at hst
    · rename_i task hk
      obtain ⟨b,p⟩ := task
      split at hst
      · rename_i hlive
        obtain ⟨hp,hd⟩ := Bool.and_eq_true_iff.mp hlive
        cases hst
        exact .inr ⟨k,b,p,rfl,hk,hp,Bool.not_eq_true' _ |>.mp hd,rfl⟩
      · cases hst
    · cases hst

/-- A dead task takes no step, so its place in the pool does not change. -/
theorem step_deadTask (h : MortalInv s) {l : MortalLabel Addr ι} (hst : s.step l = some t)
    (hk : s.dead k = true) : t.dead k = true ∧ t.pool.tasks k = s.pool.tasks k := by
  rcases mortal_cases hst with ⟨m,rfl,hm,hpool,hd⟩ | ⟨j,b,p,rfl,-,-,-,rfl⟩
  · refine ⟨hd ▸ hk,?_⟩
    obtain ⟨a,hfl⟩ := h.dead k hk
    obtain ⟨p,hp,-⟩ := inFlightAt_iff.mp hfl
    rw [hp]
    refine step_tasks h.pool hpool (fun hactor => ?_) hp
    rw [hactor,Option.any_some,hk] at hm
    cases hm
  · refine ⟨?_,rfl⟩
    by_cases hj : k = j
    · subst hj
      exact Function.update_self ..
    · exact (Function.update_of_ne hj ..).trans hk

omit [DecidableEq ι] in
theorem inFlightAt_congr (h : q.tasks k = p.tasks k) : q.inFlightAt a k = p.inFlightAt a k := by
  unfold State.inFlightAt
  rw [h]

theorem step_mortalInv (h : MortalInv s) {l : MortalLabel Addr ι} (hst : s.step l = some t) :
    MortalInv t := by
  have hkeep : ∀ k, s.dead k = true → ∃ a, t.pool.inFlightAt a k = true := by
    intro k hk
    obtain ⟨a,ha⟩ := h.dead k hk
    exact ⟨a,(inFlightAt_congr (step_deadTask h hst hk).2).trans ha⟩
  rcases mortal_cases hst with ⟨m,rfl,-,hpool,hd⟩ | ⟨j,b,p,rfl,hj,hp,-,rfl⟩
  · exact ⟨step_inv h.pool hpool,fun k hk => hkeep k (hd ▸ hk)⟩
  · refine ⟨h.pool,fun k hk => ?_⟩
    by_cases hkj : k = j
    · subst hkj
      exact ⟨b,inFlightAt_iff.mpr ⟨p,hj,hp⟩⟩
    · exact hkeep k ((Function.update_of_ne hkj ..).symm.trans hk)

omit [DecidableEq ι] in
/-- The slots are attended as long as nobody has died, and no longer. -/
theorem MortalInv.attended_iff (h : MortalInv s) : Attended s ↔ ∀ k, s.dead k = false := by
  constructor
  · intro hatt k
    refine Bool.eq_false_iff.mpr fun hk => ?_
    obtain ⟨a,ha⟩ := h.dead k hk
    obtain ⟨ho,ws,hm⟩ := h.pool.inFlight_unique ha
    obtain ⟨j,hj,hlive⟩ := hatt a ws hm
    rw [(h.pool.inFlight_unique hj).1,← ho,hk] at hlive
    cases hlive
  · intro hlive a ws hm
    obtain ⟨p,hp,hf⟩ := h.pool.slots.slot a ws hm
    exact ⟨s.pool.owner a,inFlightAt_iff.mpr ⟨p,hp,hf⟩,hlive _⟩

def NoDeath (_ : Mortal Addr ι) (l : MortalLabel Addr ι) : Prop := ∀ k, l ≠ .die k

theorem step_attended (h : MortalInv s) (hP : Attended s) {l : MortalLabel Addr ι}
    (hst : s.step l = some t) : Attended t ↔ NoDeath s l := by
  have hall := h.attended_iff.mp hP
  rw [(step_mortalInv h hst).attended_iff]
  rcases mortal_cases hst with ⟨m,rfl,-,-,hd⟩ | ⟨j,b,p,rfl,-,-,-,rfl⟩
  · exact ⟨fun _ _ => nofun,fun _ k => hd ▸ hall k⟩
  · refine ⟨fun hlive => ?_,fun hno => (hno j rfl).elim⟩
    have hj : Function.update s.dead j true j = false := hlive j
    rw [Function.update_self] at hj
    cases hj

theorem mortal_joined (h : MortalInv s) {l : MortalLabel Addr ι} (hst : s.step l = some t) {v : Addr × ℕ}
    (hj : s.pool.joined i = some v) : t.pool.joined i = some v := by
  rcases mortal_cases hst with ⟨m,rfl,-,hpool,-⟩ | ⟨j,b,p,rfl,-,-,-,rfl⟩
  · exact step_joined h.pool hpool hj
  · exact hj

structure Stranded (a : Addr) (k : ℕ) (i : ι) (s : Mortal Addr ι) : Prop where
  joined : s.pool.joined i = some (a,k)
  unserved : ∀ e, s.pool.phase i ≠ .returned (.reused e)

theorem step_stranded (h : MortalInv s) {l : MortalLabel Addr ι} (hst : s.step l = some t)
    (hi : Stranded a k i s) : Stranded a k i t := by
  rcases mortal_cases hst with ⟨m,rfl,-,hpool,-⟩ | ⟨j,b,p,rfl,-,-,-,rfl⟩
  · refine ⟨step_joined h.pool hpool hi.joined,fun e he => ?_⟩
    obtain ⟨b,-,hp,-⟩ := served_open hpool (hi.unserved e) he
    cases (h.pool.senders.unjoined i (.inr ⟨b,hp⟩)).symm.trans hi.joined
  · exact ⟨hi.joined,hi.unserved⟩

structure DeadAt (a : Addr) (k : ℕ) (s : Mortal Addr ι) : Prop where
  inv : MortalInv s
  dead : s.dead k = true
  inFlight : s.pool.inFlightAt a k = true

theorem step_deadAt {l : MortalLabel Addr ι} (h : DeadAt a k s) (hst : s.step l = some t) : DeadAt a k t := by
  obtain ⟨hd,ht⟩ := step_deadTask h.inv hst h.dead
  exact ⟨step_mortalInv h.inv hst,hd,(inFlightAt_congr ht).trans h.inFlight⟩

omit [DecidableEq ι] in
/-- The slot stays `Connecting` and nobody else connects to the address. -/
theorem DeadAt.wedged (h : DeadAt a k s) : (∃ ws, s.pool.map a = some (.connecting ws)) ∧
    ∀ j, s.pool.inFlightAt a j = true → s.dead j = true := by
  obtain ⟨ho,hws⟩ := h.inv.pool.inFlight_unique h.inFlight
  refine ⟨hws,fun j hj => ?_⟩
  rw [(h.inv.pool.inFlight_unique hj).1,← ho]
  exact h.dead

/-- A caller that has joined the dead task is in the slot, with nothing sent to it
and nothing to receive. -/
theorem DeadAt.joined (h : DeadAt a k s) (hi : s.pool.joined i = some (a,k)) :
    i ∈ s.pool.waitersAt a ∧ s.pool.sent i = [] ∧ step s.pool (.receive i) = none := by
  obtain ⟨p,hp,hf⟩ := inFlightAt_iff.mp h.inFlight
  have hsenders := h.inv.pool.senders
  have hwait : i ∈ s.pool.waitersAt a := by
    rcases hsenders.senders i a k hi with ⟨-,hw⟩ | ⟨b,hb,-,rfl,-⟩ | ⟨res,ht,-⟩
    · exact hw
    · obtain ⟨-,-,res,ht,-⟩ := hsenders.batch b hb
      rw [hp] at ht
      cases ht
      cases hf
    · rw [hp] at ht
      cases ht
      cases hf
  have hsent : s.pool.sent i = [] := by
    obtain ⟨ws,hm,hmem⟩ := mem_waitersAt.mp hwait
    exact ((hsenders.waiters a ws hm).2 i hmem).2
  refine ⟨hwait,hsent,Option.eq_none_iff_forall_ne_some.mpr fun q hq => ?_⟩
  obtain ⟨b,hb,⟨r,rest,hs,-⟩ | ⟨-,hheld,-⟩⟩ := step_receive hq
  · cases hsent.symm.trans hs
  · cases (hsenders.senderHeld hb hsent).symm.trans hheld

theorem DeadAt.unreturned (h : DeadAt a k s) (hi : Stranded a k i s) (reply : Reply) :
    s.pool.phase i ≠ .returned reply := by
  intro hr
  have hsenders := h.inv.pool.senders
  cases reply with
  | reused e => exact hi.unserved e hr
  | taskCancelled => exact hsenders.noFallback i hr
  | answered r =>
    have hmem := (hsenders.replies i r hr).2
    rw [(h.joined hi.joined).2.1] at hmem
    exact List.not_mem_nil hmem

omit [DecidableEq ι] in
theorem DeadAt.joined_of_mem (h : DeadAt a k s) (hi : i ∈ s.pool.waitersAt a) :
    s.pool.joined i = some (a,k) := by
  obtain ⟨ws,hm,hmem⟩ := mem_waitersAt.mp hi
  obtain ⟨ho,-⟩ := h.inv.pool.inFlight_unique h.inFlight
  rw [ho]
  exact ((h.inv.pool.senders.waiters a ws hm).2 i hmem).1

/-- In every run each `Connecting` slot has its task in flight if and only if no
connect task dies. After a death the slot stays `Connecting` in every continuation,
nobody else ever connects to the address, and neither the callers that wait there
nor those that join later are sent or can receive anything. -/
theorem slots_attended_iff {ls : List (MortalLabel Addr ι)} (h : exec Mortal.step Mortal.init ls = some s) :
    (Always Mortal.step Attended Mortal.init ls ↔ Meets Mortal.step NoDeath Mortal.init ls) ∧
    ∀ k t, s.step (.die k) = some t → ∃ a, s.pool.inFlightAt a k = true ∧
      ∀ ms u, exec Mortal.step t ms = some u →
        (∃ ws, u.pool.map a = some (.connecting ws)) ∧
        (∀ j, u.pool.inFlightAt a j = true → u.dead j = true) ∧
        (∀ i ∈ t.pool.waitersAt a, i ∈ u.pool.waitersAt a ∧
          (t.pool.phase i = .waiting a → ∀ reply, u.pool.phase i ≠ .returned reply)) ∧
        ∀ i ∈ u.pool.waitersAt a, u.pool.sent i = [] ∧ step u.pool (.receive i) = none := by
  have hinv : MortalInv s := exec_invariant (fun _ _ _ hs hst => step_mortalInv hs hst) mortalInv_init h
  refine ⟨?_,fun k t hst => ?_⟩
  · exact always_iff_meets (fun _ _ _ hs _ hst => step_mortalInv hs hst)
      (fun _ _ _ hs hP _ hst => step_attended hs hP hst) mortalInv_init
      (mortalInv_init.attended_iff.mpr fun _ => rfl) meets_true h
  · rcases mortal_cases hst with ⟨m,hl,-⟩ | ⟨j,a,p,hl,hk,hp,-,ht⟩
    · cases hl
    · cases hl
      have hfl : s.pool.inFlightAt a k = true := inFlightAt_iff.mpr ⟨p,hk,hp⟩
      have hdead : DeadAt a k t := by
        refine ⟨step_mortalInv hinv hst,?_,?_⟩ <;> rw [ht]
        · exact Function.update_self ..
        · exact hfl
      refine ⟨a,hfl,fun ms u hu => ?_⟩
      have hlater := exec_invariant (fun _ _ _ hd hst => step_deadAt hd hst) hdead hu
      obtain ⟨hslot,hnobody⟩ := hlater.wedged
      refine ⟨hslot,hnobody,fun i hi => ?_,fun i hi => (hlater.joined (hlater.joined_of_mem hi)).2⟩
      have hj := hdead.joined_of_mem hi
      have hstay : DeadAt a k u ∧ u.pool.joined i = some (a,k) :=
        exec_invariant (I := fun v => DeadAt a k v ∧ v.pool.joined i = some (a,k))
          (fun v l w hv hw => ⟨step_deadAt hv.1 hw,mortal_joined hv.1.inv hw hv.2⟩) ⟨hdead,hj⟩ hu
      refine ⟨(hstay.1.joined hstay.2).1,fun hwaiting => ?_⟩
      have hstranded : Stranded a k i t := ⟨hj,fun e he => by cases hwaiting.symm.trans he⟩
      have hrun := exec_invariant (I := fun v => DeadAt a k v ∧ Stranded a k i v)
        (fun v l w hv hw => ⟨step_deadAt hv.1 hw,step_stranded hv.1.inv hw hv.2⟩) ⟨hdead,hstranded⟩ hu
      exact hrun.1.unreturned hrun.2

def deathRun : List (MortalLabel ℕ ℕ) := [.act (.enter 0 7),.act (.lookup 0)]

theorem deathRun_wedges : ∃ s t, exec Mortal.step Mortal.init deathRun = some s ∧
    s.step (.die 0) = some t ∧ t.pool.map 7 = some (.connecting [0]) ∧ s.pool.inFlightAt 7 0 = true ∧
      t.pool.waitersAt 7 = [0] ∧ t.pool.phase 0 = .waiting 7 := ⟨_,_,rfl,rfl,rfl,rfl,rfl,rfl⟩

theorem dead_task_wedges : ¬ ∀ (ls : List (MortalLabel ℕ ℕ)) (s : Mortal ℕ ℕ),
    exec Mortal.step Mortal.init ls = some s → Attended s := by
  intro h
  obtain ⟨s,t,hs,ht,-⟩ := deathRun_wedges
  have hrun : exec Mortal.step Mortal.init (deathRun ++ [.die 0]) = some t := by
    rw [exec_append,hs,Option.bind_some,exec_cons,ht]
    rfl
  have hinv : MortalInv t := exec_invariant (fun _ _ _ hs hst => step_mortalInv hs hst) mortalInv_init hrun
  have hall := hinv.attended_iff.mp (h _ t hrun) 0
  rcases mortal_cases ht with ⟨m,hl,-⟩ | ⟨j,a,p,hl,-,-,-,rfl⟩
  · cases hl
  · cases hl
    cases (Function.update_self 0 true s.dead).symm.trans hall

theorem slots_attended_iff_deathRun : ∃ s t, exec Mortal.step Mortal.init deathRun = some s ∧
    s.step (.die 0) = some t ∧ ∀ ms u, exec Mortal.step t ms = some u →
      0 ∈ u.pool.waitersAt 7 ∧ ∀ reply, u.pool.phase 0 ≠ .returned reply := by
  obtain ⟨s,t,hs,ht,hm,hfl,hwait,hphase⟩ := deathRun_wedges
  obtain ⟨a,ha,hlater⟩ := (slots_attended_iff hs).2 0 t ht
  have ha7 : a = 7 := by
    obtain ⟨p,hp,-⟩ := inFlightAt_iff.mp ha
    obtain ⟨q,hq,-⟩ := inFlightAt_iff.mp hfl
    cases hp.symm.trans hq
    rfl
  subst ha7
  refine ⟨s,t,hs,ht,fun ms u hu => ?_⟩
  obtain ⟨hmem,hnever⟩ := (hlater ms u hu).2.2.1 0 (hwait ▸ List.mem_singleton_self 0)
  exact ⟨hmem,hnever hphase⟩

end GrpcQuic.Pool
