import GrpcQuic.Client.Pool

/-! # Slots, connect tasks and open connections of the pool

One step lemma for each operation of the pool on the slot map: a `Connecting`
slot always has exactly its own task in flight, and an installed connection
stays in the map until it closes.
-/
namespace GrpcQuic.Pool
open Transition
variable {Addr ι : Type*} [DecidableEq Addr] [DecidableEq ι]

structure SlotInv (s : State Addr ι) : Prop where
  fresh : ∀ k, s.nextTask ≤ k → s.tasks k = none
  flight : ∀ k a p, s.tasks k = some ⟨a,p⟩ → p.inFlight = true →
    s.owner a = k ∧ ∃ ws, s.map a = some (.connecting ws)
  slot : ∀ a ws, s.map a = some (.connecting ws) →
    ∃ p, s.tasks (s.owner a) = some ⟨a,p⟩ ∧ p.inFlight = true
  named : ∀ k a e, s.tasks k = some ⟨a,.locking (.ok e)⟩ ∨ s.tasks k = some ⟨a,.completed (.ok e)⟩ →
    e.quic.stableId = k
  openReady : ∀ k a e, s.tasks k = some ⟨a,.completed (.ok e)⟩ → s.closed k = false →
    s.map a = some (.ready e)
  installed : ∀ a e, s.map a = some (.ready e) → s.tasks e.quic.stableId = some ⟨a,.completed (.ok e)⟩

omit [DecidableEq Addr] [DecidableEq ι] in
theorem slotInv_init : SlotInv (State.init : State Addr ι) := by
  constructor <;> simp [State.init]

/-! Inversion of the steps: what each label needs and what it leaves behind. -/
section Inversion
variable {s t : State Addr ι}

theorem step_enter {i : ι} {a : Addr} (h : step s (.enter i a) = some t) :
    s.phase i = .idle ∧ t = s.setPhase i (.locking a) := by
  simp only [step] at h
  split at h
  · rename_i hp; exact ⟨hp,(Option.some.inj h).symm⟩
  · cases h

theorem step_lookup {i : ι} (h : step s (.lookup i) = some t) :
    ∃ a, s.phase i = .locking a ∧ s.batch = none ∧ t = s.getOrConnect i a := by
  simp only [step] at h
  split at h
  · rename_i a hp hb; exact ⟨a,hp,hb,(Option.some.inj h).symm⟩
  · cases h

theorem step_cancel {i : ι} (h : step s (.cancel i) = some t) :
    ((∃ a, s.phase i = .locking a) ∨ ∃ a, s.phase i = .waiting a) ∧ t = s.setPhase i .cancelled := by
  simp only [step] at h
  split at h
  · rename_i a hp; exact ⟨.inl ⟨a,hp⟩,(Option.some.inj h).symm⟩
  · rename_i a hp; exact ⟨.inr ⟨a,hp⟩,(Option.some.inj h).symm⟩
  · cases h

theorem step_receive {i : ι} (h : step s (.receive i) = some t) :
    ∃ a, s.phase i = .waiting a ∧
      ((∃ r rest, s.sent i = r :: rest ∧ t = s.setPhase i (.returned (.answered r))) ∨
       (s.sent i = [] ∧ s.senderHeld i a = false ∧ t = s.setPhase i (.returned .taskCancelled))) := by
  simp only [step] at h
  split at h
  · rename_i a hp
    refine ⟨a,hp,?_⟩
    split at h
    · rename_i r rest hs; exact .inl ⟨r,rest,hs,(Option.some.inj h).symm⟩
    · rename_i hs
      split at h
      · cases h
      · rename_i hh; exact .inr ⟨hs,Bool.eq_false_iff.mpr hh,(Option.some.inj h).symm⟩
  · cases h

/-- The four steps of a connect task before it asks for the mutex. -/
theorem step_task {l : Label Addr ι} {k : ℕ}
    (hl : l = .connected k ∨ (∃ e, l = .connectFailed k e) ∨ l = .h3Ready k ∨ ∃ e, l = .h3Failed k e)
    (h : step s l = some t) :
    ∃ a p p' n, s.tasks k = some ⟨a,p⟩ ∧ p.inFlight = true ∧ p'.inFlight = true ∧
      (∀ e, p' = .locking (.ok e) → e.quic.stableId = k) ∧
      t = { s.setTask k ⟨a,p'⟩ with connectionsTotal := n } := by
  rcases hl with rfl | ⟨e,rfl⟩ | rfl | ⟨e,rfl⟩
  · simp only [step] at h
    split at h
    · rename_i a hk; exact ⟨a,_,_,_,hk,rfl,rfl,by simp,(Option.some.inj h).symm⟩
    · cases h
  · simp only [step] at h
    split at h
    · rename_i a hk; exact ⟨a,_,_,_,hk,rfl,rfl,by simp,(Option.some.inj h).symm⟩
    · cases h
  · simp only [step] at h
    split at h
    · rename_i a hk
      refine ⟨a,_,_,_,hk,rfl,rfl,?_,(Option.some.inj h).symm⟩
      intro e he
      cases he
      rfl
    · cases h
  · simp only [step] at h
    split at h
    · rename_i a hk; exact ⟨a,_,_,_,hk,rfl,rfl,by simp,(Option.some.inj h).symm⟩
    · cases h

theorem step_complete {k : ℕ} (h : step s (.complete k) = some t) :
    ∃ a res, s.tasks k = some ⟨a,.locking res⟩ ∧ s.batch = none ∧ t = s.completeTask k a res := by
  simp only [step] at h
  split at h
  · rename_i a res hk hb; exact ⟨a,res,hk,hb,(Option.some.inj h).symm⟩
  · cases h

theorem step_answer (h : step s .answer = some t) :
    ∃ a k r i rest, s.batch = some ⟨a,k,r,i :: rest⟩ ∧
      t = { s with sent := Function.update s.sent i (s.sent i ++ [r]), batch := some ⟨a,k,r,rest⟩ } := by
  simp only [step] at h
  split at h
  · rename_i a k r i rest hb; exact ⟨a,k,r,i,rest,hb,(Option.some.inj h).symm⟩
  · cases h

theorem step_finish (h : step s .finish = some t) :
    ∃ a k r, s.batch = some ⟨a,k,r,[]⟩ ∧ t = { s with batch := none } := by
  simp only [step] at h
  split at h
  · rename_i a k r hb; exact ⟨a,k,r,hb,(Option.some.inj h).symm⟩
  · cases h

theorem step_close {k : ℕ} (h : step s (.close k) = some t) :
    t = { s with closed := Function.update s.closed k true } := by
  simp only [step] at h
  split at h
  · cases h
  · cases h
  · exact (Option.some.inj h).symm

theorem step_invalidate {a : Addr} (h : step s (.invalidate a) = some t) :
    s.batch = none ∧
      t = { s with map := Function.update s.map a (evict s.isClosed (s.map a)) } := by
  simp only [step] at h
  split at h
  · rename_i hb; exact ⟨hb,(Option.some.inj h).symm⟩
  · cases h

/-- The three outcomes of the locked section of `get_or_connect`. -/
theorem getOrConnect_cases (s : State Addr ι) (i : ι) (a : Addr) :
    (∃ e, s.map a = some (.ready e) ∧ s.isClosed e.quic = false ∧
      s.getOrConnect i a = s.setPhase i (.returned (.reused e))) ∨
    (∃ ws, s.map a = some (.connecting ws) ∧ s.getOrConnect i a =
      { s with
        map := Function.update s.map a (some (.connecting (ws ++ [i])))
        phase := Function.update s.phase i (.waiting a)
        joined := Function.update s.joined i (some (a,s.owner a)) }) ∨
    ((∀ ws, s.map a ≠ some (.connecting ws)) ∧
      (∀ e, s.map a = some (.ready e) → s.isClosed e.quic = true) ∧ s.getOrConnect i a =
      { s with
        map := Function.update s.map a (some (.connecting [i]))
        tasks := Function.update s.tasks s.nextTask (some ⟨a,.connecting⟩)
        nextTask := s.nextTask + 1
        owner := Function.update s.owner a s.nextTask
        phase := Function.update s.phase i (.waiting a)
        joined := Function.update s.joined i (some (a,s.nextTask)) }) := by
  unfold State.getOrConnect
  cases hm : s.map a with
  | none => exact .inr (.inr ⟨by simp,by simp,by simp only [lookup]⟩)
  | some slot =>
    cases slot with
    | connecting ws => exact .inr (.inl ⟨ws,rfl,by simp only [lookup]⟩)
    | ready e =>
      cases hc : s.isClosed e.quic with
      | false => exact .inl ⟨e,rfl,hc,by simp only [lookup,hc,Bool.false_eq_true,↓reduceIte]⟩
      | true =>
        refine .inr (.inr ⟨by simp,?_,by simp only [lookup,hc,↓reduceIte]⟩)
        intro e' he'
        cases he'
        exact hc

inductive TaskMove (k : ℕ) : Label Addr ι → TaskPhase → TaskPhase → Prop where
  | connected : TaskMove k (.connected k) .connecting .h3Setup
  | connectFailed (e : ClientError) : TaskMove k (.connectFailed k e) .connecting (.locking (.error e))
  | h3Ready : TaskMove k (.h3Ready k) .h3Setup (.locking (.ok ⟨⟨k⟩,⟨k⟩⟩))
  | h3Failed (e : CoreError) : TaskMove k (.h3Failed k e) .h3Setup (.locking (.error (.streamIo e.toString)))
  | complete (res : PoolResult) : TaskMove k (.complete k) (.locking res) (.completed res)

/-- What a step does to the tasks: it leaves them, spawns the next one for a caller
that joins it, or moves one. -/
inductive TaskChange (s : State Addr ι) (l : Label Addr ι) (t : State Addr ι) : Prop where
  | still (hl : l.connectTask = none) (ht : t.tasks = s.tasks) (hn : t.nextTask = s.nextTask)
  | spawned (i : ι) (a : Addr) (hl : l = .lookup i)
      (hclosed : ∀ e, s.map a = some (.ready e) → s.isClosed e.quic = true)
      (ht : t.tasks = Function.update s.tasks s.nextTask (some ⟨a,.connecting⟩))
      (hn : t.nextTask = s.nextTask + 1) (hj : t.joined i = some (a,s.nextTask))
  | moved (k : ℕ) (a : Addr) (p p' : TaskPhase) (hm : TaskMove k l p p') (hk : s.tasks k = some ⟨a,p⟩)
      (ht : t.tasks = Function.update s.tasks k (some ⟨a,p'⟩)) (hn : t.nextTask = s.nextTask)

/-- What a step can do to the tasks, the callers and the connections. -/
structure Change (s : State Addr ι) (l : Label Addr ι) (t : State Addr ι) : Prop where
  tasks : TaskChange s l t
  phase : ∀ i, l.caller ≠ some i → t.phase i = s.phase i
  joined : t.joined = s.joined ∨
    ∃ i a k, l = .lookup i ∧ s.phase i = .locking a ∧ t.joined = Function.update s.joined i (some (a,k))
  closed : ∀ q, t.isClosed q = false → s.isClosed q = false

omit [DecidableEq Addr] in
theorem Change.setPhase {l : Label Addr ι} {i : ι} (hl : l.caller = some i) (p : CallerPhase Addr) :
    Change s l (s.setPhase i p) := by
  refine ⟨.still ?_ rfl rfl,fun j hj => Function.update_of_ne (fun he => hj ?_) ..,.inl rfl,fun _ h => h⟩
  · cases l <;> first | rfl | cases hl
  · rw [hl,he]

omit [DecidableEq Addr] in
theorem Change.move {l : Label Addr ι} {k : ℕ} {a : Addr} {p p' : TaskPhase} (hm : TaskMove k l p p')
    (hk : s.tasks k = some ⟨a,p⟩) (ht : t.tasks = Function.update s.tasks k (some ⟨a,p'⟩))
    (hn : t.nextTask = s.nextTask) (hp : t.phase = s.phase) (hj : t.joined = s.joined)
    (hc : t.closed = s.closed) : Change s l t := by
  refine ⟨.moved k a p p' hm hk ht hn,fun _ _ => by rw [hp],.inl hj,fun q hq => ?_⟩
  unfold State.isClosed at hq ⊢
  rwa [← hc]

theorem Change.getOrConnect {i : ι} {a : Addr} (hp : s.phase i = .locking a) :
    Change s (.lookup i) (s.getOrConnect i a) := by
  have hphase (p : CallerPhase Addr) : ∀ j, (Label.lookup i : Label Addr ι).caller ≠ some j →
      Function.update s.phase i p j = s.phase j :=
    fun j hj => Function.update_of_ne (fun he => hj (congrArg some he.symm)) ..
  rcases getOrConnect_cases s i a with ⟨e,-,-,hg⟩ | ⟨ws,-,hg⟩ | ⟨-,hcl,hg⟩ <;> rw [hg]
  · exact .setPhase rfl _
  · exact ⟨.still rfl rfl rfl,hphase _,.inr ⟨i,a,_,rfl,hp,rfl⟩,fun _ h => h⟩
  · exact ⟨.spawned i a rfl hcl rfl rfl (Function.update_self ..),hphase _,.inr ⟨i,a,_,rfl,hp,rfl⟩,fun _ h => h⟩

/-- The one inversion over all labels. -/
theorem step_change {l : Label Addr ι} (h : step s l = some t) : Change s l t := by
  have hmove {k : ℕ} {a : Addr} {p p' : TaskPhase} (hm : TaskMove k l p p') (hk : s.tasks k = some ⟨a,p⟩) (n : ℕ) :
      Change s l { s.setTask k ⟨a,p'⟩ with connectionsTotal := n } := .move hm hk rfl rfl rfl rfl rfl
  cases l with
  | enter i a => obtain ⟨-,rfl⟩ := step_enter h; exact .setPhase rfl _
  | lookup i => obtain ⟨a,hp,-,rfl⟩ := step_lookup h; exact .getOrConnect hp
  | cancel i => obtain ⟨-,rfl⟩ := step_cancel h; exact .setPhase rfl _
  | receive i => obtain ⟨a,-,⟨r,rest,-,rfl⟩ | ⟨-,-,rfl⟩⟩ := step_receive h <;> exact .setPhase rfl _
  | connected k =>
    simp only [step] at h
    split at h
    · rename_i a hk; cases h; exact hmove .connected hk _
    · cases h
  | connectFailed k e =>
    simp only [step] at h
    split at h
    · rename_i a hk; cases h; exact hmove (.connectFailed e) hk _
    · cases h
  | h3Ready k =>
    simp only [step] at h
    split at h
    · rename_i a hk; cases h; exact hmove .h3Ready hk _
    · cases h
  | h3Failed k e =>
    simp only [step] at h
    split at h
    · rename_i a hk; cases h; exact hmove (.h3Failed e) hk _
    · cases h
  | complete k => obtain ⟨a,res,hk,-,rfl⟩ := step_complete h; exact .move (.complete res) hk rfl rfl rfl rfl rfl
  | answer =>
    obtain ⟨a,k,r,i,rest,-,rfl⟩ := step_answer h
    exact ⟨.still rfl rfl rfl,fun _ _ => rfl,.inl rfl,fun _ h => h⟩
  | finish =>
    obtain ⟨a,k,r,-,rfl⟩ := step_finish h
    exact ⟨.still rfl rfl rfl,fun _ _ => rfl,.inl rfl,fun _ h => h⟩
  | close k =>
    rw [step_close h]
    refine ⟨.still rfl rfl rfl,fun _ _ => rfl,.inl rfl,fun q hq => ?_⟩
    change Function.update s.closed k true q.stableId = false at hq
    by_cases hk : q.stableId = k
    · rw [hk,Function.update_self] at hq
      cases hq
    · rw [Function.update_of_ne hk] at hq
      exact hq
  | invalidate a =>
    obtain ⟨-,rfl⟩ := step_invalidate h
    exact ⟨.still rfl rfl rfl,fun _ _ => rfl,.inl rfl,fun _ h => h⟩

theorem step_phase {l : Label Addr ι} (h : step s l = some t) {i : ι} (hi : l.caller ≠ some i) :
    t.phase i = s.phase i := (step_change h).phase i hi

theorem step_taskPhase {l : Label Addr ι} (h : step s l = some t) {k : ℕ} {task : Task Addr}
    (hk : t.tasks k = some task) : s.tasks k = some task ∨
      (task.phase = .connecting ∧ ∀ e, s.map task.addr = some (.ready e) → s.isClosed e.quic = true) ∨
      ∃ p, s.tasks k = some ⟨task.addr,p⟩ ∧ TaskMove k l p task.phase := by
  rcases (step_change h).tasks with ⟨-,ht,-⟩ | ⟨i,a,-,hcl,ht,-,-⟩ | ⟨j,a,p,p',hm,hj,ht,-⟩ <;> rw [ht] at hk
  · exact .inl hk
  · by_cases hkn : k = s.nextTask
    · subst hkn
      cases (Function.update_self ..).symm.trans hk
      exact .inr (.inl ⟨rfl,hcl⟩)
    · exact .inl ((Function.update_of_ne hkn ..).symm.trans hk)
  · by_cases hkj : k = j
    · subst hkj
      cases (Function.update_self ..).symm.trans hk
      exact .inr (.inr ⟨p,hj,hm⟩)
    · exact .inl ((Function.update_of_ne hkj ..).symm.trans hk)

theorem step_task_kept {l : Label Addr ι} (h : step s l = some t) {k : ℕ} {task : Task Addr}
    (hfresh : s.tasks s.nextTask = none) (hl : ∀ p', ¬ TaskMove k l task.phase p')
    (hk : s.tasks k = some task) : t.tasks k = some task := by
  rcases (step_change h).tasks with ⟨-,ht,-⟩ | ⟨i,a,-,-,ht,-,-⟩ | ⟨j,a,p,p',hm,hj,ht,-⟩ <;> rw [ht]
  · exact hk
  · have hne : k ≠ s.nextTask := by
      rintro rfl
      cases hk.symm.trans hfresh
    exact (Function.update_of_ne hne ..).trans hk
  · have hne : k ≠ j := by
      rintro rfl
      cases hk.symm.trans hj
      exact hl p' hm
    exact (Function.update_of_ne hne ..).trans hk

end Inversion

section Preservation
variable {s : State Addr ι}

omit [DecidableEq Addr] [DecidableEq ι] in
theorem SlotInv.setTask (h : SlotInv s) {k : ℕ} {a : Addr} {p p' : TaskPhase} (n : ℕ)
    (hk : s.tasks k = some ⟨a,p⟩) (hp : p.inFlight = true) (hp' : p'.inFlight = true)
    (hn : ∀ e, p' = .locking (.ok e) → e.quic.stableId = k) :
    SlotInv { s.setTask k ⟨a,p'⟩ with connectionsTotal := n } := by
  have hself : Function.update s.tasks k (some ⟨a,p'⟩) k = some ⟨a,p'⟩ := Function.update_self ..
  have hother {j : ℕ} (hj : j ≠ k) : Function.update s.tasks k (some ⟨a,p'⟩) j = s.tasks j :=
    Function.update_of_ne hj ..
  refine ⟨?_,?_,?_,?_,?_,?_⟩ <;> simp only [State.setTask]
  · intro j hj
    have hjk : j ≠ k := by
      rintro rfl
      exact absurd (h.fresh j hj) (by simp [hk])
    rw [hother hjk]
    exact h.fresh j hj
  · intro j a' q hq hqf
    by_cases hj : j = k
    · subst hj
      rw [hself] at hq
      cases hq
      exact h.flight j a p hk hp
    · exact h.flight j a' q (hother hj ▸ hq) hqf
  · intro a' ws hm
    obtain ⟨q,hq,hqf⟩ := h.slot a' ws hm
    by_cases hj : s.owner a' = k
    · rw [hj] at hq ⊢
      cases hk.symm.trans hq
      exact ⟨p',hself,hp'⟩
    · exact ⟨q,(hother hj).trans hq,hqf⟩
  · intro j a' e he
    by_cases hj : j = k
    · subst hj
      rw [hself] at he
      rcases he with he | he
      · cases he; exact hn e rfl
      · cases he; cases hp'
    · rw [hother hj] at he
      exact h.named j a' e he
  · intro j a' e he hc
    by_cases hj : j = k
    · subst hj
      rw [hself] at he
      cases he
      cases hp'
    · exact h.openReady j a' e (hother hj ▸ he) hc
  · intro a' e hm
    have he := h.installed a' e hm
    have hj : e.quic.stableId ≠ k := by
      intro hj
      rw [hj,hk] at he
      cases he
      cases hp
    rw [hother hj]
    exact he

omit [DecidableEq ι] in
theorem SlotInv.join (h : SlotInv s) {a : Addr} {ws ws' : List ι} (hm : s.map a = some (.connecting ws))
    (phase : ι → CallerPhase Addr) (joined : ι → Option (Addr × ℕ)) :
    SlotInv { s with map := Function.update s.map a (some (.connecting ws')), phase, joined } := by
  have hkeep {a' : Addr} {e : PoolEntry}
      (he : Function.update s.map a (some (.connecting ws')) a' = some (.ready e)) :
      s.map a' = some (.ready e) := by
    by_cases ha : a' = a
    · subst ha; simp at he
    · rwa [Function.update_of_ne ha] at he
  refine ⟨h.fresh,?_,?_,h.named,?_,?_⟩
  · intro k a' p hk hp
    obtain ⟨ho,vs,hv⟩ := h.flight k a' p hk hp
    by_cases ha : a' = a
    · subst ha; exact ⟨ho,ws',Function.update_self ..⟩
    · exact ⟨ho,vs,by simpa only [Function.update_of_ne ha] using hv⟩
  · intro a' vs hv
    by_cases ha : a' = a
    · subst ha; exact h.slot a' ws hm
    · exact h.slot a' vs (by simpa only [Function.update_of_ne ha] using hv)
  · intro k a' e he hc
    have hr := h.openReady k a' e he hc
    have ha : a' ≠ a := by
      rintro rfl
      rw [hm] at hr
      cases hr
    simpa only [Function.update_of_ne ha] using hr
  · intro a' e he
    exact h.installed a' e (hkeep he)

omit [DecidableEq ι] in
theorem SlotInv.spawn (h : SlotInv s) {a : Addr} {ws : List ι}
    (hnc : ∀ ws, s.map a ≠ some (.connecting ws))
    (hcl : ∀ e, s.map a = some (.ready e) → s.isClosed e.quic = true)
    (phase : ι → CallerPhase Addr) (joined : ι → Option (Addr × ℕ)) :
    SlotInv { s with
      map := Function.update s.map a (some (.connecting ws))
      tasks := Function.update s.tasks s.nextTask (some ⟨a,.connecting⟩)
      nextTask := s.nextTask + 1
      owner := Function.update s.owner a s.nextTask
      phase, joined } := by
  have hnew : s.tasks s.nextTask = none := h.fresh _ le_rfl
  have hother {j : ℕ} {task : Task Addr} (hj : s.tasks j = some task) : j ≠ s.nextTask := by
    rintro rfl
    simp [hnew] at hj
  refine ⟨?_,?_,?_,?_,?_,?_⟩
  · intro k hk
    have hne : k ≠ s.nextTask := by dsimp only at hk; omega
    dsimp only at hk ⊢
    rw [Function.update_of_ne hne]
    exact h.fresh k (by omega)
  · intro k a' p hk hp
    dsimp only at hk ⊢
    by_cases hkn : k = s.nextTask
    · subst hkn
      rw [Function.update_self] at hk
      cases hk
      exact ⟨Function.update_self ..,ws,Function.update_self ..⟩
    · rw [Function.update_of_ne hkn] at hk
      obtain ⟨ho,vs,hv⟩ := h.flight k a' p hk hp
      have ha : a' ≠ a := by
        rintro rfl
        exact hnc vs hv
      rw [Function.update_of_ne ha,Function.update_of_ne ha]
      exact ⟨ho,vs,hv⟩
  · intro a' vs hv
    dsimp only at hv ⊢
    by_cases ha : a' = a
    · subst ha
      rw [Function.update_self,Function.update_self]
      exact ⟨_,rfl,rfl⟩
    · rw [Function.update_of_ne ha] at hv ⊢
      obtain ⟨p,hp,hf⟩ := h.slot a' vs hv
      rw [Function.update_of_ne (hother hp)]
      exact ⟨p,hp,hf⟩
  · intro k a' e he
    dsimp only at he
    by_cases hkn : k = s.nextTask
    · subst hkn
      simp at he
    · rw [Function.update_of_ne hkn] at he
      exact h.named k a' e he
  · intro k a' e he hc
    dsimp only at he hc ⊢
    by_cases hkn : k = s.nextTask
    · subst hkn
      simp at he
    · rw [Function.update_of_ne hkn] at he
      have hr := h.openReady k a' e he hc
      have ha : a' ≠ a := by
        rintro rfl
        have hclosed := hcl e hr
        rw [State.isClosed,h.named k a' e (.inr he),hc] at hclosed
        cases hclosed
      rwa [Function.update_of_ne ha]
  · intro a' e he
    dsimp only at he ⊢
    by_cases ha : a' = a
    · subst ha
      simp at he
    · rw [Function.update_of_ne ha] at he
      have hi := h.installed a' e he
      rwa [Function.update_of_ne (hother hi)]

omit [DecidableEq ι] in
/-- A completing task finds its own slot, and what it puts there is what it made. -/
theorem SlotInv.completeTask (h : SlotInv s) {k : ℕ} {a : Addr} {res : PoolResult}
    (hk : s.tasks k = some ⟨a,.locking res⟩) : SlotInv (s.completeTask k a res) := by
  obtain ⟨ho,ws,hm⟩ := h.flight k a _ hk rfl
  have hmap : (s.completeTask k a res).map = Function.update s.map a
      (match res with | .ok e => some (.ready e) | .error _ => none) := by
    cases res <;> simp only [State.completeTask,hm,install]
  have htasks : (s.completeTask k a res).tasks = Function.update s.tasks k (some ⟨a,.completed res⟩) := rfl
  have hnc {a' : Addr} {vs : List ι}
      (hv : (s.completeTask k a res).map a' = some (.connecting vs)) :
      a' ≠ a ∧ s.map a' = some (.connecting vs) := by
    rw [hmap] at hv
    by_cases ha : a' = a
    · subst ha; cases res <;> simp at hv
    · exact ⟨ha,by rwa [Function.update_of_ne ha] at hv⟩
  refine ⟨?_,?_,?_,?_,?_,?_⟩
  · intro j hj
    have hjk : j ≠ k := by
      rintro rfl
      exact absurd (h.fresh j hj) (by simp [hk])
    rw [htasks,Function.update_of_ne hjk]
    exact h.fresh j hj
  · intro j a' p hj hp
    rw [htasks] at hj
    have hjk : j ≠ k := by
      rintro rfl
      rw [Function.update_self] at hj
      cases hj
      cases hp
    rw [Function.update_of_ne hjk] at hj
    obtain ⟨hj',vs,hv⟩ := h.flight j a' p hj hp
    have ha : a' ≠ a := by
      rintro rfl
      exact hjk (hj'.symm.trans ho)
    exact ⟨hj',vs,by rw [hmap,Function.update_of_ne ha]; exact hv⟩
  · intro a' vs hv
    obtain ⟨ha,hv'⟩ := hnc hv
    obtain ⟨p,hp,hf⟩ := h.slot a' vs hv'
    have hjk : s.owner a' ≠ k := by
      intro hj
      rw [hj,hk] at hp
      cases hp
      exact ha rfl
    exact ⟨p,by rw [htasks]; exact (Function.update_of_ne hjk ..).trans hp,hf⟩
  · intro j a' e he
    rw [htasks] at he
    by_cases hj : j = k
    · subst hj
      rw [Function.update_self] at he
      rcases he with he | he
      · cases he
      · cases he; exact h.named j a e (.inl hk)
    · rw [Function.update_of_ne hj] at he
      exact h.named j a' e he
  · intro j a' e he hc
    rw [htasks] at he
    by_cases hj : j = k
    · subst hj
      rw [Function.update_self] at he
      cases he
      rw [hmap,Function.update_self]
    · rw [Function.update_of_ne hj] at he
      have hr := h.openReady j a' e he hc
      have ha : a' ≠ a := by
        rintro rfl
        rw [hm] at hr
        cases hr
      rw [hmap,Function.update_of_ne ha]
      exact hr
  · intro a' e hr
    rw [hmap] at hr
    by_cases ha : a' = a
    · subst ha
      cases res with
      | error _ => simp at hr
      | ok e' =>
        rw [Function.update_self] at hr
        cases hr
        rw [htasks,h.named k a' e (.inl hk),Function.update_self]
    · rw [Function.update_of_ne ha] at hr
      have hi := h.installed a' e hr
      have hj : e.quic.stableId ≠ k := by
        intro hj
        rw [hj,hk] at hi
        cases hi
      rw [htasks,Function.update_of_ne hj]
      exact hi

omit [DecidableEq Addr] [DecidableEq ι] in
theorem SlotInv.close (h : SlotInv s) (k : ℕ) :
    SlotInv { s with closed := Function.update s.closed k true } := by
  refine ⟨h.fresh,h.flight,h.slot,h.named,?_,h.installed⟩
  intro j a e he hc
  dsimp only at hc
  refine h.openReady j a e he ?_
  by_cases hj : j = k
  · subst hj; simp at hc
  · rwa [Function.update_of_ne hj] at hc

omit [DecidableEq ι] in
theorem evict_eq_connecting {isClosed : QuicConnection → Bool} {slot : Option (Slot ι)} {ws : List ι} :
    evict isClosed slot = some (.connecting ws) ↔ slot = some (.connecting ws) := by
  rcases slot with _ | ⟨vs⟩ | ⟨e⟩
  · simp [evict]
  · simp [evict]
  · by_cases hc : isClosed e.quic = true <;> simp [evict,hc]

omit [DecidableEq ι] in
theorem evict_eq_ready {isClosed : QuicConnection → Bool} {slot : Option (Slot ι)} {e : PoolEntry} :
    evict isClosed slot = some (.ready e) ↔ slot = some (.ready e) ∧ isClosed e.quic = false := by
  rcases slot with _ | ⟨vs⟩ | ⟨e'⟩
  · simp [evict]
  · simp [evict]
  · by_cases hc : isClosed e'.quic = true
    · simp only [evict,hc,↓reduceIte]
      constructor
      · intro h; cases h
      · rintro ⟨h,hf⟩; cases h; rw [hc] at hf; cases hf
    · simp only [evict,hc,Bool.false_eq_true,↓reduceIte]
      constructor
      · intro h; cases h; exact ⟨rfl,Bool.eq_false_iff.mpr hc⟩
      · exact fun h => h.1

omit [DecidableEq ι] in
/-- Eviction touches no slot that is connecting. -/
theorem map_evict_connecting {a a' : Addr} {ws : List ι} :
    Function.update s.map a (evict s.isClosed (s.map a)) a' = some (.connecting ws) ↔
      s.map a' = some (.connecting ws) := by
  by_cases ha : a' = a
  · subst ha; rw [Function.update_self]; exact evict_eq_connecting
  · rw [Function.update_of_ne ha]

omit [DecidableEq ι] in
theorem SlotInv.invalidate (h : SlotInv s) (a : Addr) :
    SlotInv { s with map := Function.update s.map a (evict s.isClosed (s.map a)) } := by
  refine ⟨h.fresh,?_,?_,h.named,?_,?_⟩
  · intro k a' p hk hp
    obtain ⟨ho,ws,hm⟩ := h.flight k a' p hk hp
    exact ⟨ho,ws,map_evict_connecting.mpr hm⟩
  · intro a' ws hm
    exact h.slot a' ws (map_evict_connecting.mp hm)
  · intro k a' e he hc
    have hr := h.openReady k a' e he hc
    dsimp only
    by_cases ha : a' = a
    · subst ha
      rw [Function.update_self]
      exact evict_eq_ready.mpr ⟨hr,by rw [State.isClosed,h.named k a' e (.inr he)]; exact hc⟩
    · rwa [Function.update_of_ne ha]
  · intro a' e hm
    dsimp only at hm
    by_cases ha : a' = a
    · subst ha
      rw [Function.update_self] at hm
      exact h.installed a' e (evict_eq_ready.mp hm).1
    · exact h.installed a' e (by rwa [Function.update_of_ne ha] at hm)

theorem step_slotInv {l : Label Addr ι} {t : State Addr ι} (h : SlotInv s) (hst : step s l = some t) :
    SlotInv t := by
  cases l with
  | enter i a => obtain ⟨-,rfl⟩ := step_enter hst; exact ⟨h.1,h.2,h.3,h.4,h.5,h.6⟩
  | lookup i =>
    obtain ⟨a,-,-,rfl⟩ := step_lookup hst
    rcases getOrConnect_cases s i a with ⟨e,-,-,ht⟩ | ⟨ws,hm,ht⟩ | ⟨hnc,hcl,ht⟩
    · rw [ht]; exact ⟨h.1,h.2,h.3,h.4,h.5,h.6⟩
    · rw [ht]; exact h.join hm _ _
    · rw [ht]; exact h.spawn hnc hcl _ _
  | cancel i => obtain ⟨-,rfl⟩ := step_cancel hst; exact ⟨h.1,h.2,h.3,h.4,h.5,h.6⟩
  | receive i =>
    obtain ⟨a,-,⟨r,rest,-,rfl⟩ | ⟨-,-,rfl⟩⟩ := step_receive hst
    · exact ⟨h.1,h.2,h.3,h.4,h.5,h.6⟩
    · exact ⟨h.1,h.2,h.3,h.4,h.5,h.6⟩
  | connected k =>
    obtain ⟨a,p,p',n,hk,hp,hp',hn,rfl⟩ := step_task (.inl rfl) hst
    exact h.setTask n hk hp hp' hn
  | connectFailed k e =>
    obtain ⟨a,p,p',n,hk,hp,hp',hn,rfl⟩ := step_task (.inr (.inl ⟨e,rfl⟩)) hst
    exact h.setTask n hk hp hp' hn
  | h3Ready k =>
    obtain ⟨a,p,p',n,hk,hp,hp',hn,rfl⟩ := step_task (.inr (.inr (.inl rfl))) hst
    exact h.setTask n hk hp hp' hn
  | h3Failed k e =>
    obtain ⟨a,p,p',n,hk,hp,hp',hn,rfl⟩ := step_task (.inr (.inr (.inr ⟨e,rfl⟩))) hst
    exact h.setTask n hk hp hp' hn
  | complete k => obtain ⟨a,res,hk,-,rfl⟩ := step_complete hst; exact h.completeTask hk
  | answer => obtain ⟨a,k,r,i,rest,-,rfl⟩ := step_answer hst; exact ⟨h.1,h.2,h.3,h.4,h.5,h.6⟩
  | finish => obtain ⟨a,k,r,-,rfl⟩ := step_finish hst; exact ⟨h.1,h.2,h.3,h.4,h.5,h.6⟩
  | close k => rw [step_close hst]; exact h.close k
  | invalidate a => obtain ⟨-,rfl⟩ := step_invalidate hst; exact h.invalidate a

end Preservation

end GrpcQuic.Pool
