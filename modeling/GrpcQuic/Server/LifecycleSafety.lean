import GrpcQuic.Server.Lifecycle

/-! # Safety of the server's lifecycle

Requests are tied to the join set of their connection and connections to the join
set of the server, so the orderly return waits for all of them. The broadcast
stays in the receiver of a connection task until the task leaves its accept loop.
-/
namespace GrpcQuic.Server
open Transition

inductive ConnPhase.Next : ConnPhase → ConnPhase → Prop where
  | built : Next .building .selecting
  | failed : Next .building .ended
  | cancelled : Next .selecting .shuttingDown
  | accepted : Next .selecting .resolving
  | acceptEnded : Next .selecting .joining
  | resolved : Next .resolving .selecting
  | shutDown : Next .shuttingDown .joining
  | drop : Next .joining .ended

inductive ConnPhase.Moves : ConnPhase → ConnLabel → ConnPhase → Prop where
  | built : Moves .building (.built true) .selecting
  | failed : Moves .building (.built false) .ended
  | cancelled : Moves .selecting .cancelled .shuttingDown
  | accepted : Moves .selecting .accepted .resolving
  | acceptEnded : Moves .selecting .acceptEnded .joining
  | resolved (path : Option String) : Moves .resolving (.resolved path) .selecting
  | shutDown : Moves .shuttingDown .shutDown .joining
  | drop : Moves .joining .drop .ended
  | request (p : ConnPhase) (r : ℕ) (m : RequestLabel) : Moves p (.request r m) p
  | join (r : ℕ) : Moves .joining (.join r) .joining
  | deliver (p : ConnPhase) (r : ℕ) : Moves p (.deliver r) p
  | lost (p : ConnPhase) : Moves p .lost p

def ConnPhase.Leaving (phase : ConnPhase) : Prop :=
  phase = .shuttingDown ∨ phase = .joining ∨ phase = .ended

/-- The broadcast waits in the receiver, or the task needs it no more. -/
def Conn.Notified (conn : Conn) : Prop := conn.cancel = true ∨ conn.phase.Leaving

structure Conn.Enclosing (conn : Conn) : Prop where
  fresh : conn.phase = .building → conn.tasks = []
  finished : conn.phase = .ended → ∀ task ∈ conn.tasks, task.ended = true

variable {permits permits' : ℕ} {conn conn' : Conn} {l : ConnLabel} {s t : State}

theorem ConnPhase.Next.leaving {p q : ConnPhase} (h : p.Next q) (hp : p.Leaving) : q.Leaving := by
  cases h with
  | shutDown => exact .inr (.inl rfl)
  | drop => exact .inr (.inr rfl)
  | _ => rcases hp with hp | hp | hp <;> cases hp

/-- What a step does to the task itself. Only the shutdown branch takes the broadcast. -/
theorem Conn.step_moves (h : conn.step permits l = some (permits',conn')) :
    conn.phase.Moves l conn'.phase ∧ (l = .cancelled ∨ conn'.cancel = conn.cancel) ∧
      (l = .drop ∨ l = .lost ∨ conn'.up = conn.up) := by
  cases l with
  | built ok =>
    cases hp : conn.phase <;> simp only [Conn.step,hp,reduceCtorEq] at h
    cases ok <;> cases h
    · exact ⟨.failed,.inr rfl,.inr (.inr rfl)⟩
    · exact ⟨.built,.inr rfl,.inr (.inr rfl)⟩
  | cancelled =>
    cases hp : conn.phase <;> simp only [Conn.step,hp,reduceCtorEq] at h
    split at h
    · cases h
      exact ⟨.cancelled,.inl rfl,.inr (.inr rfl)⟩
    · cases h
  | accepted =>
    cases hp : conn.phase <;> simp only [Conn.step,hp,reduceCtorEq] at h
    cases h
    exact ⟨.accepted,.inr rfl,.inr (.inr rfl)⟩
  | acceptEnded =>
    cases hp : conn.phase <;> simp only [Conn.step,hp,reduceCtorEq] at h
    cases h
    exact ⟨.acceptEnded,.inr rfl,.inr (.inr rfl)⟩
  | resolved path =>
    simp only [Conn.step] at h
    split at h
    · rename_i hp
      cases h
      rw [hp]
      exact ⟨.resolved _,.inr rfl,.inr (.inr rfl)⟩
    · rename_i hp _
      cases h
      rw [hp]
      exact ⟨.resolved _,.inr rfl,.inr (.inr rfl)⟩
    · cases h
  | shutDown =>
    cases hp : conn.phase <;> simp only [Conn.step,hp,reduceCtorEq] at h
    cases h
    exact ⟨.shutDown,.inr rfl,.inr (.inr rfl)⟩
  | drop =>
    simp only [Conn.step] at h
    split at h
    · rename_i hp _
      cases h
      exact ⟨hp ▸ .drop,.inr rfl,.inl rfl⟩
    · cases h
  | request r m =>
    obtain ⟨next,-,hc⟩ := Option.map_eq_some_iff.mp h
    cases hc
    exact ⟨.request _ r m,.inr rfl,.inr (.inr rfl)⟩
  | join r =>
    cases hp : conn.phase <;> simp only [Conn.step,hp,reduceCtorEq] at h
    split at h
    · cases h
      exact ⟨.join r,.inr rfl,.inr (.inr rfl)⟩
    · cases h
  | deliver r =>
    simp only [Conn.step] at h
    split at h
    · obtain ⟨next,-,hc⟩ := Option.map_eq_some_iff.mp h
      cases hc
      exact ⟨.deliver _ r,.inr rfl,.inr (.inr rfl)⟩
    · cases h
  | lost =>
    simp only [Conn.step] at h
    split at h
    · cases h
      exact ⟨.lost _,.inr rfl,.inr (.inl rfl)⟩
    · cases h

/-- A step of the task moves it on and takes the broadcast only into the shutdown
branch; everyone else's steps leave both alone. -/
theorem Conn.step_phase (h : conn.step permits l = some (permits',conn')) :
    (conn'.phase = conn.phase ∧ conn'.cancel = conn.cancel) ∨
      (conn.phase.Next conn'.phase ∧ (conn'.cancel = conn.cancel ∨ conn'.phase = .shuttingDown)) := by
  obtain ⟨hmoves,hcancel,-⟩ := Conn.step_moves h
  generalize conn.phase = p at hmoves ⊢
  generalize conn'.phase = p' at hmoves ⊢
  have hkept (hl : l ≠ .cancelled) : conn'.cancel = conn.cancel := hcancel.resolve_left hl
  cases hmoves with
  | built => exact .inr ⟨.built,.inl (hkept nofun)⟩
  | failed => exact .inr ⟨.failed,.inl (hkept nofun)⟩
  | cancelled => exact .inr ⟨.cancelled,.inr rfl⟩
  | accepted => exact .inr ⟨.accepted,.inl (hkept nofun)⟩
  | acceptEnded => exact .inr ⟨.acceptEnded,.inl (hkept nofun)⟩
  | resolved path => exact .inr ⟨.resolved,.inl (hkept nofun)⟩
  | shutDown => exact .inr ⟨.shutDown,.inl (hkept nofun)⟩
  | drop => exact .inr ⟨.drop,.inl (hkept nofun)⟩
  | request r m => exact .inl ⟨rfl,hkept nofun⟩
  | join r => exact .inl ⟨rfl,hkept nofun⟩
  | deliver r => exact .inl ⟨rfl,hkept nofun⟩
  | lost => exact .inl ⟨rfl,hkept nofun⟩

theorem Conn.step_notified (h : conn.Notified) (hst : conn.step permits l = some (permits',conn')) :
    conn'.Notified := by
  rcases Conn.step_phase hst with ⟨hp,hc⟩ | ⟨hp,hc⟩
  · unfold Conn.Notified
    rw [hp,hc]
    exact h
  · rcases h with h | h
    · rcases hc with hc | hc
      · exact .inl (hc.trans h)
      · exact .inr (.inl hc)
    · exact .inr (hp.leaving h)

/-- Outside its accept loop a connection task starts no further request. -/
theorem Conn.step_leaving (h : conn.phase.Leaving)
    (hst : conn.step permits l = some (permits',conn')) :
    conn'.phase.Leaving ∧ conn'.tasks.length = conn.tasks.length := by
  constructor
  · rcases Conn.step_phase hst with ⟨hp,-⟩ | ⟨hp,-⟩
    · exact hp ▸ h
    · exact hp.leaving h
  · rcases Conn.step_length hst with hlen | ⟨path,-,-,hp⟩
    · exact hlen
    · rw [hp] at h
      rcases h with h | h | h <;> cases h

theorem Conn.step_enclosing (h : conn.Enclosing) (hi : ConnInv conn)
    (hst : conn.step permits l = some (permits',conn')) : conn'.Enclosing := by
  have hfresh : conn'.phase = .building → conn.phase = .building := by
    intro hb
    rcases Conn.step_phase hst with ⟨hp,-⟩ | ⟨hp,-⟩
    · exact hp ▸ hb
    · generalize conn.phase = p at hp
      rw [hb] at hp
      cases hp
  rcases Conn.step_cases hst with ⟨-,ht,-,-,hjoin,-⟩ | ⟨-,rfl⟩ | ⟨path,-,rfl,-⟩ |
    ⟨r,task,next,⟨m,-,hm⟩,ht,rfl⟩ | ⟨r,task,next,-,hdel,ht,rfl⟩ | ⟨-,-,hj,rfl⟩
  · refine ⟨fun hb => ht.trans (h.fresh (hfresh hb)),fun he => ?_⟩
    rw [ht]
    rcases Conn.step_phase hst with ⟨hp,-⟩ | ⟨hp,-⟩
    · exact h.finished (hp ▸ he)
    · generalize hq : conn.phase = p at hp
      rw [he] at hp
      cases hp with
      | failed => exact (h.fresh hq).symm ▸ List.forall_mem_nil _
      | drop => cases he.symm.trans (hjoin hq)
  · exact ⟨h.fresh,h.finished⟩
  · exact ⟨nofun,nofun⟩
  · have hlive : conn.phase ≠ .ended := by
      intro he
      exact Bool.false_ne_true ((not_ended_of_step hm).symm.trans (h.finished he task (List.mem_of_getElem? ht)))
    refine ⟨fun hb => ?_,fun he => (hlive he).elim⟩
    rw [h.fresh hb] at ht
    cases ht
  · refine ⟨fun hb => ?_,fun he task' ht' => ?_⟩
    · rw [h.fresh hb] at ht
      cases ht
    · rcases List.mem_or_eq_of_mem_set ht' with hm | rfl
      · exact h.finished he task' hm
      · exact (deliver_ended hdel).trans (h.finished he task (List.mem_of_getElem? ht))
  · refine ⟨nofun,fun _ task ht => ?_⟩
    obtain ⟨old,hold,rfl⟩ := mem_discard ht
    exact hi.all_ended hj old hold

def LoopPhase.Stopped (phase : LoopPhase) : Prop :=
  phase = .draining ∨ ∃ forced, phase = .returned forced

theorem accepting_not_stopped : ¬ LoopPhase.accepting.Stopped := by
  rintro (hs | ⟨forced,hs⟩) <;> cases hs

theorem connecting_not_stopped : ¬ LoopPhase.connecting.Stopped := by
  rintro (hs | ⟨forced,hs⟩) <;> cases hs

theorem step_loop {l : Label} (h : step s l = some t) :
    (¬ s.phase.Stopped ∧ l ≠ .signal ∧ t.conns = s.conns ∧ t.joinSet = s.joinSet ∧
      t.rejecting = s.rejecting ∧ t.permits = s.permits ∧ ∀ forced, t.phase ≠ .returned forced) ∨
    (¬ s.phase.Stopped ∧ l ≠ .signal ∧ t.conns = s.conns ++ [.new] ∧
      t.joinSet = s.joinSet ++ [s.conns.length] ∧ t.rejecting = s.rejecting ∧ t.permits = s.permits ∧
      t.phase = .accepting) ∨
    (¬ s.phase.Stopped ∧ l = .signal ∧ t = s.signal) ∨
    (∃ c m conn permits conn', l = .conn c m ∧ s.conns[c]? = some conn ∧
      conn.step s.permits m = some (permits,conn') ∧ t = { s with permits, conns := s.conns.set c conn' }) ∨
    (∃ c conn, s.phase = .draining ∧ l = .joined c ∧ s.conns[c]? = some conn ∧ conn.phase = .ended ∧
      t = { s with joinSet := s.joinSet.erase c }) ∨
    (s.phase = .draining ∧ l = .drained ∧ s.joinSet = [] ∧ t = { s with phase := .returned false }) ∨
    (s.phase = .draining ∧ l = .timeout ∧ t = s.close) := by
  cases l with
  | incoming =>
    cases hp : s.phase <;> simp only [step,hp,reduceCtorEq] at h
    cases h
    exact .inl ⟨accepting_not_stopped,by rintro ⟨⟩,rfl,rfl,rfl,rfl,by rintro _ ⟨⟩⟩
  | endpointClosed =>
    cases hp : s.phase <;> simp only [step,hp,reduceCtorEq] at h
    cases h
    exact .inl ⟨accepting_not_stopped,by rintro ⟨⟩,rfl,rfl,rfl,rfl,by rintro _ ⟨⟩⟩
  | handshake ok =>
    cases hp : s.phase <;> simp only [step,hp,reduceCtorEq] at h
    cases ok <;> cases h
    · exact .inl ⟨connecting_not_stopped,by rintro ⟨⟩,rfl,rfl,rfl,rfl,by rintro _ ⟨⟩⟩
    · exact .inr (.inl ⟨connecting_not_stopped,by rintro ⟨⟩,rfl,rfl,rfl,rfl,rfl⟩)
  | signal =>
    cases hp : s.phase <;> simp only [step,hp,reduceCtorEq] at h <;> cases h
    · exact .inr (.inr (.inl ⟨accepting_not_stopped,rfl,rfl⟩))
    · exact .inr (.inr (.inl ⟨connecting_not_stopped,rfl,rfl⟩))
  | conn c m =>
    obtain ⟨conn,permits,conn',hc,hm,rfl⟩ := step_conn h
    exact .inr (.inr (.inr (.inl ⟨c,m,conn,permits,conn',rfl,hc,hm,rfl⟩)))
  | joined c =>
    cases hp : s.phase <;> simp only [step,hp,reduceCtorEq] at h
    split at h
    · rename_i hj
      obtain ⟨conn,hc,he⟩ := (Option.any_eq_true ..).mp (Bool.and_eq_true_iff.mp hj).2
      cases h
      exact .inr (.inr (.inr (.inr (.inl ⟨c,conn,rfl,rfl,hc,of_decide_eq_true he,rfl⟩))))
    · cases h
  | drained =>
    simp only [step] at h
    split at h
    · rename_i hp hj
      cases h
      exact .inr (.inr (.inr (.inr (.inr (.inl ⟨hp,rfl,hj,rfl⟩)))))
    · cases h
  | timeout =>
    cases hp : s.phase <;> simp only [step,hp,reduceCtorEq] at h
    cases h
    exact .inr (.inr (.inr (.inr (.inr (.inr ⟨rfl,rfl,rfl⟩)))))

structure LifecycleInv (s : State) : Prop where
  server : ServerInv s
  enclosing : ∀ conn ∈ s.conns, conn.Enclosing
  notified : s.rejecting = true → ∀ conn ∈ s.conns, conn.Notified
  stopped : s.rejecting = true → s.phase.Stopped
  held : ∀ c conn, s.conns[c]? = some conn → conn.phase ≠ .ended → c ∈ s.joinSet
  joined : ∀ forced, s.phase = .returned forced → s.joinSet = []

theorem lifecycleInv_init (server : QuicServer) : LifecycleInv server.init where
  server := serverInv_init server
  enclosing _ hc := (List.not_mem_nil hc).elim
  notified := nofun
  stopped := nofun
  held _ _ hc := nomatch hc
  joined := nofun

theorem enclosing_new : Conn.new.Enclosing := ⟨fun _ => rfl,nofun⟩

theorem enclosing_abort (conn : Conn) : conn.abort.Enclosing :=
  ⟨nofun,fun _ task ht => (((connInv_abort conn).gone rfl).2 task ht).2⟩

theorem step_enclosing (h : LifecycleInv s) {l : Label} (hst : step s l = some t) :
    ∀ conn ∈ t.conns, conn.Enclosing := by
  apply forall_conns_step h.enclosing hst enclosing_new
  · exact fun conn he => ⟨he.fresh,he.finished⟩
  · intro c m old permits conn' _ hold hm
    have hmem := List.mem_of_getElem? hold
    exact Conn.step_enclosing (h.enclosing old hmem) (h.server old hmem) hm
  · exact fun _ old _ => enclosing_abort old

theorem step_notified (h : LifecycleInv s) {l : Label} (hst : step s l = some t)
    (hr : t.rejecting = true) : ∀ conn ∈ t.conns, conn.Notified := by
  intro conn hc
  rcases step_loop hst with ⟨hp,-,-,-,ht,-⟩ | ⟨hp,-,-,-,ht,-⟩ | ⟨-,-,rfl⟩ |
    ⟨c,m,old,permits,conn',-,hold,hm,rfl⟩ | ⟨c,old,-,-,-,-,rfl⟩ | ⟨-,-,-,rfl⟩ | ⟨-,-,rfl⟩
  · exact (hp (h.stopped (ht ▸ hr))).elim
  · exact (hp (h.stopped (ht ▸ hr))).elim
  · obtain ⟨old,-,rfl⟩ := List.mem_map.mp hc
    exact .inl rfl
  · rcases List.mem_or_eq_of_mem_set hc with hc | rfl
    · exact h.notified hr conn hc
    · exact Conn.step_notified (h.notified hr old (List.mem_of_getElem? hold)) hm
  · exact h.notified hr conn hc
  · exact h.notified hr conn hc
  · obtain ⟨old,-,rfl⟩ := List.mem_map.mp hc
    exact .inr (.inr (.inr rfl))

theorem step_held (h : LifecycleInv s) {l : Label} (hst : step s l = some t) (c : ℕ) (conn : Conn)
    (hc : t.conns[c]? = some conn) (hne : conn.phase ≠ .ended) : c ∈ t.joinSet := by
  rcases step_loop hst with ⟨-,-,ht,hj,-⟩ | ⟨-,-,ht,hj,-⟩ | ⟨-,-,rfl⟩ |
    ⟨q,m,old,permits,conn',-,hold,hm,rfl⟩ | ⟨q,old,-,-,hq,hover,rfl⟩ | ⟨-,-,-,rfl⟩ | ⟨-,-,rfl⟩
  · rw [hj]
    exact h.held c conn (ht ▸ hc) hne
  · rw [hj]
    rw [ht,List.getElem?_append] at hc
    split at hc
    · exact List.mem_append_left _ (h.held c conn hc hne)
    · have hlt : c - s.conns.length < 1 := (List.getElem?_eq_some_iff.mp hc).1
      have hlen : c = s.conns.length := by omega
      exact List.mem_append_right _ (hlen ▸ List.mem_singleton_self _)
  · rw [State.signal,List.getElem?_map] at hc
    obtain ⟨old,hold,rfl⟩ := Option.map_eq_some_iff.mp hc
    exact h.held c old hold hne
  · rw [List.getElem?_set] at hc
    split at hc
    · rename_i hqc
      have hlive : old.phase ≠ .ended := fun he => hne ?_
      · exact h.held c old (hqc ▸ hold) hlive
      · split at hc
        · cases hc
          rcases Conn.step_phase hm with ⟨hp,-⟩ | ⟨hp,-⟩
          · exact hp.trans he
          · rw [he] at hp
            cases hp
        · cases hc
    · exact h.held c conn hc hne
  · have hcq : c ≠ q := by
      rintro rfl
      cases hc.symm.trans hq
      exact hne hover
    exact (List.mem_erase_of_ne hcq).mpr (h.held c conn hc hne)
  · exact h.held c conn hc hne
  · rw [State.close,List.getElem?_map] at hc
    obtain ⟨old,-,rfl⟩ := Option.map_eq_some_iff.mp hc
    exact (hne rfl).elim

theorem step_lifecycleInv (h : LifecycleInv s) {l : Label} (hst : step s l = some t) :
    LifecycleInv t where
  server := step_serverInv h.server hst
  enclosing := step_enclosing h hst
  notified := step_notified h hst
  held := step_held h hst
  stopped hr := by
    rcases step_loop hst with ⟨hp,-,-,-,ht,-⟩ | ⟨hp,-,-,-,ht,-⟩ | ⟨-,-,rfl⟩ |
      ⟨c,m,old,permits,conn',-,-,-,rfl⟩ | ⟨c,old,-,-,-,-,rfl⟩ | ⟨-,-,-,rfl⟩ | ⟨-,-,rfl⟩
    · exact (hp (h.stopped (ht ▸ hr))).elim
    · exact (hp (h.stopped (ht ▸ hr))).elim
    · exact .inl rfl
    · exact h.stopped hr
    · exact h.stopped hr
    · exact .inr ⟨false,rfl⟩
    · exact .inr ⟨true,rfl⟩
  joined forced hp := by
    rcases step_loop hst with ⟨-,-,-,-,-,-,ht⟩ | ⟨-,-,-,-,-,-,ht⟩ | ⟨-,-,rfl⟩ |
      ⟨c,m,old,permits,conn',-,-,-,rfl⟩ | ⟨c,old,hs,-,-,-,rfl⟩ | ⟨-,-,hj,rfl⟩ | ⟨-,-,rfl⟩
    · exact (ht forced hp).elim
    · cases ht.symm.trans hp
    · cases hp
    · exact h.joined forced hp
    · cases hs.symm.trans hp
    · exact hj
    · rfl

theorem step_stopped (h : s.phase.Stopped) {l : Label} (hst : step s l = some t) :
    t.phase.Stopped ∧ t.connections = s.connections ∧ t.conns.length = s.conns.length := by
  rcases step_loop hst with ⟨hp,-⟩ | ⟨hp,-⟩ | ⟨hp,-⟩ | ⟨c,m,old,permits,conn',-,-,-,rfl⟩ |
    ⟨c,old,-,-,-,-,rfl⟩ | ⟨-,-,-,rfl⟩ | ⟨-,-,rfl⟩
  · exact (hp h).elim
  · exact (hp h).elim
  · exact (hp h).elim
  · exact ⟨h,rfl,List.length_set⟩
  · exact ⟨h,rfl,rfl⟩
  · exact ⟨.inr ⟨false,rfl⟩,rfl,rfl⟩
  · exact ⟨.inr ⟨true,rfl⟩,rfl,List.length_map _⟩

/-- The flag is set by the signal branch and never cleared. -/
theorem step_rejecting {l : Label} (hst : step s l = some t) (h : s.rejecting = true ∨ l = .signal) :
    t.rejecting = true := by
  rcases step_loop hst with ⟨-,hl,-,-,ht,-⟩ | ⟨-,hl,-,-,ht,-⟩ | ⟨-,-,rfl⟩ |
    ⟨c,m,old,permits,conn',rfl,-,-,rfl⟩ | ⟨c,old,-,rfl,-,-,rfl⟩ | ⟨-,rfl,-,rfl⟩ | ⟨-,rfl,rfl⟩
  · exact ht.trans (h.resolve_right hl)
  · exact ht.trans (h.resolve_right hl)
  · rfl
  all_goals exact h.resolve_right nofun

theorem exec_rejecting {ls : List Label} (h : exec step s ls = some t) (hs : .signal ∈ ls) :
    t.rejecting = true := by
  obtain ⟨as,bs,rfl⟩ := List.append_of_mem hs
  rw [exec_append] at h
  obtain ⟨u,-,hu⟩ := Option.bind_eq_some_iff.mp h
  obtain ⟨v,hv,hrest⟩ := exec_cons_eq_some.mp hu
  have hr := step_rejecting hv (.inr rfl)
  exact exec_invariant (fun _ _ _ hr hst => step_rejecting hst (.inl hr)) hr hrest

def LeftWith (c n : ℕ) (s : State) : Prop :=
  ∃ conn, s.conns[c]? = some conn ∧ conn.phase.Leaving ∧ conn.tasks.length = n

theorem step_leftWith {c n : ℕ} (h : LeftWith c n s) {l : Label} (hst : step s l = some t) :
    LeftWith c n t := by
  obtain ⟨conn,hc,hp,hn⟩ := h
  obtain ⟨conn',hc',rfl | rfl | ⟨m,permits,-,hm⟩ | rfl⟩ := step_place hst hc
  · exact ⟨conn',hc',hp,hn⟩
  · exact ⟨_,hc',hp,hn⟩
  · obtain ⟨hp',hn'⟩ := Conn.step_leaving hp hm
    exact ⟨conn',hc',hp',hn'.trans hn⟩
  · refine ⟨conn.abort,hc',.inr (.inr rfl),?_⟩
    rw [← hn]
    exact (List.length_map _).trans (List.length_map _)

/-- A task that waits for requests takes the broadcast as soon as it is there. -/
theorem step_cancelled {c : ℕ} (hc : s.conns[c]? = some conn) (hp : conn.phase = .selecting)
    (hn : conn.Notified) : (step s (.conn c .cancelled)).isSome := by
  have hcancel : conn.cancel = true := by
    refine hn.resolve_right ?_
    rw [hp]
    rintro (hl | hl | hl) <;> cases hl
  simp only [step,hc,Option.bind_some,Conn.step,hp,hcancel,if_true,Option.map_some,Option.isSome_some]

/-- No connection task misses the broadcast or starts a request after it, tasks
end inside out, an unforced return leaves nothing running, and after the signal
no connection is accepted. -/
theorem lifecycle_safe (server : QuicServer) {ls : List Label} (h : exec step server.init ls = some s) :
    (.signal ∈ ls → ∀ c conn, s.conns[c]? = some conn →
      conn.Notified ∧ (conn.phase = .selecting → (step s (.conn c .cancelled)).isSome)) ∧
    (∀ c conn, s.conns[c]? = some conn → conn.phase.Leaving →
      ∀ ms t, exec step s ms = some t → LeftWith c conn.tasks.length t) ∧
    (∀ conn ∈ s.conns, conn.phase = .ended → ∀ task ∈ conn.tasks, task.ended = true) ∧
    (s.phase = .returned false → ∀ conn ∈ s.conns, conn.phase = .ended ∧
      ∀ task ∈ conn.tasks, task.ended = true) ∧
    (.signal ∈ ls → ∀ ms t, exec step s ms = some t →
      t.connections = s.connections ∧ t.conns.length = s.conns.length) := by
  have hi : LifecycleInv s :=
    exec_invariant (fun _ _ _ hi hst => step_lifecycleInv hi hst) (lifecycleInv_init server) h
  refine ⟨fun hs c conn hc => ?_,fun c conn hc hp ms t ht => ?_,fun conn hc => (hi.enclosing conn hc).finished,
    fun hp conn hc => ?_,fun hs ms t ht => ?_⟩
  · have hn := hi.notified (exec_rejecting h hs) conn (List.mem_of_getElem? hc)
    exact ⟨hn,fun hp => step_cancelled hc hp hn⟩
  · exact exec_invariant (fun _ _ _ hl hst => step_leftWith hl hst) ⟨conn,hc,hp,rfl⟩ ht
  · obtain ⟨c,hget⟩ := List.mem_iff_getElem?.mp hc
    have hover : conn.phase = .ended := by
      by_contra hne
      have hmem := hi.held c conn hget hne
      rw [hi.joined false hp] at hmem
      exact List.not_mem_nil hmem
    exact ⟨hover,(hi.enclosing conn hc).finished hover⟩
  · have hstop := hi.stopped (exec_rejecting h hs)
    have hrun := exec_invariant (I := fun u => u.phase.Stopped ∧ u.connections = s.connections ∧
      u.conns.length = s.conns.length) (fun u l v hu hst => ?_) ⟨hstop,rfl,rfl⟩ ht
    · exact hrun.2
    · obtain ⟨hv,hcount,hlen⟩ := step_stopped hu.1 hst
      exact ⟨hv,hcount.trans hu.2.1,hlen.trans hu.2.2⟩

/-- The signal finds one connection in its accept loop, one in its h3 setup and
a third in its handshake; the first two end in order. -/
def earlySignal : List Label :=
  [.incoming,.handshake true,.conn 0 (.built true),.incoming,.handshake true,.incoming,.signal,
   .conn 1 (.built true),.conn 0 .cancelled,.conn 0 .shutDown,.conn 0 .drop,.joined 0,
   .conn 1 .cancelled,.conn 1 .shutDown,.conn 1 .drop,.joined 1,.drained]

theorem earlySignal_returns : ∃ s, exec step (QuicServer.mk 256).init earlySignal = some s ∧
    s.phase = .returned false ∧ s.conns.length = 2 := ⟨_,rfl,rfl,rfl⟩

theorem lifecycle_safe_earlySignal : ∃ s, exec step (QuicServer.mk 256).init earlySignal = some s ∧
    s.conns.length = 2 ∧ (∀ conn ∈ s.conns, conn.phase = .ended) ∧
    ∀ ms t, exec step s ms = some t → t.conns.length = 2 := by
  obtain ⟨s,hs,hp,hlen⟩ := earlySignal_returns
  obtain ⟨-,-,-,hreturn,haccept⟩ := lifecycle_safe (QuicServer.mk 256) hs
  refine ⟨s,hs,hlen,fun conn hc => (hreturn hp conn hc).1,fun ms t ht => ?_⟩
  exact (haccept (by simp [earlySignal]) ms t ht).2.trans hlen

end GrpcQuic.Server
