import GrpcQuic.Server.LifecycleSafety
import GrpcQuic.Transition.Counting

/-! # The limit of concurrent streams

The builder is given a limit for each connection. The server turns it into the
size of one semaphore that all connections share, and admission asks nothing else.
-/
namespace GrpcQuic.Server
open Transition

def Conn.running (conn : Conn) : ℕ := conn.tasks.countP fun task => !task.ended

def Limited (L : ℕ) (s : State) : Prop := ∀ conn ∈ s.conns, conn.running ≤ L

/-- A request that gets a permit finds fewer than `L` handlers on its connection. -/
def Conn.AdmitsBelow (L permits : ℕ) (conn : Conn) (l : ConnLabel) : Prop :=
  ∀ path, l = .resolved (some path) → conn.phase = .resolving → 0 < permits → conn.running < L

def AdmitsBelow (L : ℕ) (s : State) (l : Label) : Prop :=
  ∀ c m conn, l = .conn c m → s.conns[c]? = some conn → conn.AdmitsBelow L s.permits m

variable {permits permits' L : ℕ} {conn conn' : Conn} {s t : State}

theorem running_spawn (conn : Conn) (path : String) : (conn.spawn path).running = conn.running + 1 := by
  unfold Conn.running
  rw [Conn.spawn,List.countP_append]
  rfl

theorem running_setTask {r : ℕ} {task : RequestTask} (ht : conn.tasks[r]? = some task)
    (next : RequestTask) :
    (conn.setTask r next).running + (if !task.ended then 1 else 0) =
      conn.running + if !next.ended then 1 else 0 :=
  countP_set_add _ ht next

theorem running_of_ended (h : ∀ task ∈ conn.tasks, task.ended = true) : conn.running = 0 := by
  refine List.countP_eq_zero.mpr fun task ht => ?_
  rw [h task ht]
  exact Bool.false_ne_true

theorem running_dropH3 (conn : Conn) : conn.dropH3.running = conn.running := by
  unfold Conn.running
  rw [Conn.dropH3,List.countP_map]
  rfl

theorem running_abort (conn : Conn) : conn.abort.running = 0 := by
  refine running_of_ended fun task ht => ?_
  exact (((connInv_abort conn).gone rfl).2 task ht).2

/-- A request in flight holds a permit, from its admission to its end. -/
theorem Conn.step_permits {l : ConnLabel} (h : conn.step permits l = some (permits',conn')) :
    permits' + conn'.running = permits + conn.running := by
  cases l with
  | resolved path =>
    simp only [Conn.step] at h
    split at h
    · rename_i path n _
      cases h
      rw [running_spawn]
      omega
    · cases h
      rfl
    · cases h
  | request r m =>
    obtain ⟨next,hnext,hc⟩ := Option.map_eq_some_iff.mp h
    obtain ⟨task,ht,hm⟩ := Option.bind_eq_some_iff.mp hnext
    have hset := running_setTask ht next
    cases hc
    rw [not_ended_of_step hm] at hset
    cases he : next.ended with
    | false =>
      rw [he] at hset
      exact congrArg (permits + ·) (Nat.add_right_cancel hset)
    | true =>
      rw [he] at hset
      change permits + 1 + (conn.setTask r next).running = permits + conn.running
      change (conn.setTask r next).running + 1 = conn.running at hset
      omega
  | deliver r =>
    simp only [Conn.step] at h
    split at h
    · obtain ⟨next,hnext,hc⟩ := Option.map_eq_some_iff.mp h
      obtain ⟨task,ht,hm⟩ := Option.bind_eq_some_iff.mp hnext
      have hset := running_setTask ht next
      cases hc
      rw [deliver_ended hm] at hset
      omega
    · cases h
  | drop =>
    simp only [Conn.step] at h
    split at h
    · cases h
      rw [running_dropH3]
    · cases h
  | cancelled =>
    cases hp : conn.phase <;> simp only [Conn.step,hp,reduceCtorEq] at h
    split at h <;> cases h
    rfl
  | join r =>
    cases hp : conn.phase <;> simp only [Conn.step,hp,reduceCtorEq] at h
    split at h <;> cases h
    rfl
  | lost =>
    simp only [Conn.step] at h
    split at h <;> cases h
    rfl
  | _ =>
    cases hp : conn.phase <;> simp only [Conn.step,hp,reduceCtorEq] at h
    cases h
    rfl

/-- Only an admission adds a running handler to a connection. -/
theorem Conn.step_running {l : ConnLabel} (h : conn.step permits l = some (permits',conn')) :
    conn'.running ≤ conn.running ∨ (∃ path, l = .resolved (some path) ∧ conn.phase = .resolving ∧
      0 < permits ∧ conn'.running = conn.running + 1) := by
  have hpermits := Conn.step_permits h
  rcases Conn.step_cases h with ⟨-,ht,-⟩ | ⟨-,rfl⟩ | ⟨path,rfl,rfl,hp⟩ |
    ⟨r,task,next,⟨m,-,hm⟩,ht,rfl⟩ | ⟨r,task,next,-,hdel,ht,rfl⟩ | ⟨-,-,-,rfl⟩
  · refine .inl (le_of_eq ?_)
    unfold Conn.running
    rw [ht]
  · exact .inl le_rfl
  · rw [running_spawn] at hpermits ⊢
    exact .inr ⟨path,rfl,hp,by omega,rfl⟩
  · have hset := running_setTask ht next
    rw [not_ended_of_step hm] at hset
    refine .inl ?_
    cases he : next.ended <;> rw [he] at hset <;>
      simp only [Bool.not_false,Bool.not_true,if_true,if_false,Bool.false_eq_true] at hset <;> omega
  · have hset := running_setTask ht next
    rw [deliver_ended hdel] at hset
    exact .inl (by omega)
  · exact .inl (running_dropH3 conn).le

/-- A connection within its limit stays there exactly when the step is no
admission above it. -/
theorem Conn.step_limited (hP : conn.running ≤ L) {l : ConnLabel}
    (h : conn.step permits l = some (permits',conn')) :
    conn'.running ≤ L ↔ conn.AdmitsBelow L permits l := by
  constructor
  · rintro hL path rfl hp hpos
    obtain ⟨n,rfl⟩ : ∃ n, permits = n + 1 := ⟨permits - 1,by omega⟩
    simp only [Conn.step,hp] at h
    cases h
    rw [running_spawn] at hL
    omega
  · intro hA
    rcases Conn.step_running h with hle | ⟨path,rfl,hp,hpos,hrun⟩
    · exact hle.trans hP
    · have := hA path rfl hp hpos
      omega

theorem step_limited (hP : Limited L s) {l : Label} (hst : step s l = some t) :
    Limited L t ↔ AdmitsBelow L s l := by
  constructor
  · rintro hL c m conn rfl hc
    obtain ⟨old,permits,conn',hold,hm,-⟩ := step_conn hst
    cases hc.symm.trans hold
    have hiff := Conn.step_limited (hP conn (List.mem_of_getElem? hc)) hm
    exact hiff.mp (hL conn' (mem_conns_step hst hc hm))
  · intro hA
    apply forall_conns_step hP hst (Nat.zero_le L)
    · exact fun conn hle => hle
    · intro c m conn permits conn' hl hc hm
      exact (Conn.step_limited (hP conn (List.mem_of_getElem? hc)) hm).mpr (hA c m conn hl hc)
    · exact fun _ old _ => (running_abort old).le.trans (Nat.zero_le L)

theorem step_permits {l : Label} (hst : step s l = some t) :
    t.permits + t.running = s.permits + s.running := by
  rcases step_loop hst with ⟨-,-,hc,-,-,hp,-⟩ | ⟨-,-,hc,-,-,hp,-⟩ | ⟨-,-,rfl⟩ |
    ⟨c,m,old,permits,conn',-,hold,hm,rfl⟩ | ⟨c,old,-,-,-,-,rfl⟩ | ⟨-,-,-,rfl⟩ | ⟨-,-,rfl⟩
  · unfold State.running
    rw [hc,hp]
  · unfold State.running
    rw [hc,hp,List.flatMap_append,List.countP_append]
    rfl
  · unfold State.running
    rw [State.signal,List.flatMap_map]
  · have hconn := Conn.step_permits hm
    have htotal := countP_flatMap_set (fun task : RequestTask => !task.ended) Conn.tasks hold conn'
    change permits + ((s.conns.set c conn').flatMap Conn.tasks).countP _ = s.permits + s.running
    unfold Conn.running at hconn
    unfold State.running
    omega
  · rfl
  · rfl
  · have hzero : s.close.running = 0 := by
      refine List.countP_eq_zero.mpr fun task ht => ?_
      obtain ⟨conn,hc,ht⟩ := List.mem_flatMap.mp ht
      obtain ⟨old,-,rfl⟩ := List.mem_map.mp hc
      rw [(((connInv_abort old).gone rfl).2 task ht).2]
      exact Bool.false_ne_true
    rw [hzero]
    rfl

theorem exec_permits {server : QuicServer} {ls : List Label} (h : exec step server.init ls = some s) :
    s.permits + s.running = server.streamLimit :=
  exec_invariant (I := fun u => u.permits + u.running = server.streamLimit)
    (fun _ _ _ hu hst => (step_permits hst).trans hu) rfl h

def admissions : ℕ → List Label
  | 0 => []
  | n + 1 => .conn 0 .accepted :: .conn 0 (.resolved (some "/hello")) :: admissions n

/-- As many requests as there are permits are admitted one after the other, and the
last one finds the connection at its fullest. -/
theorem exec_admissions {n m : ℕ} (hc : s.conns = [conn]) (hp : conn.phase = .selecting)
    (hn : n ≤ s.permits) (hm : conn.running + n ≤ m) :
    ∃ t conn', exec step s (admissions n) = some t ∧ t.conns = [conn'] ∧
      conn'.running = conn.running + n ∧ Always step (Limited m) s (admissions n) := by
  have hlimited {u : State} {c : Conn} (hu : u.conns = [c]) (hle : c.running ≤ m) : Limited m u := by
    intro c' hc'
    rw [hu] at hc'
    cases List.mem_singleton.mp hc'
    exact hle
  induction n generalizing s conn with
  | zero => exact ⟨s,conn,rfl,hc,rfl,hlimited hc hm⟩
  | succ n ih =>
    obtain ⟨k,hk⟩ : ∃ k, s.permits = k + 1 := ⟨s.permits - 1,by omega⟩
    let v : State := { s with conns := [{ conn with phase := .resolving }] }
    let u : State := { s with permits := k, conns := [{ conn with phase := .resolving }.spawn "/hello"] }
    have hv : step s (.conn 0 .accepted) = some v := by
      simp only [step,hc,List.getElem?_cons_zero,Option.bind_some,Conn.step,hp,Option.map_some,
        List.set_cons_zero]
      rfl
    have hu : step v (.conn 0 (.resolved (some "/hello"))) = some u := by
      simp only [step,v,List.getElem?_cons_zero,Option.bind_some,Conn.step,Option.map_some,
        List.set_cons_zero,hk]
      rfl
    have hrun : ({ conn with phase := .resolving }.spawn "/hello").running = conn.running + 1 :=
      running_spawn _ _
    obtain ⟨t,conn',ht,hconn,hcount,hall⟩ := ih (s := u) rfl rfl (by change n ≤ k; omega) (by omega)
    refine ⟨t,conn',?_,hconn,by omega,hlimited hc (by omega),fun v' hv' => ?_⟩
    · rw [admissions,exec_cons,hv,Option.bind_some,exec_cons,hu]
      exact ht
    · cases hv.symm.trans hv'
      refine ⟨hlimited rfl (by change conn.running ≤ m; omega),fun u' hu' => ?_⟩
      cases hu.symm.trans hu'
      exact hall

def burst (n : ℕ) : List Label := [.incoming,.handshake true,.conn 0 (.built true)] ++ admissions n

theorem burst_running (server : QuicServer) {n cap : ℕ} (hn : n ≤ server.streamLimit) (hcap : n ≤ cap) :
    ∃ s conn, exec step server.init (burst n) = some s ∧ s.conns = [conn] ∧ conn.running = n ∧
      Always step (Limited cap) server.init (burst n) := by
  let u : State := ⟨.accepting,false,server.streamLimit,[{ Conn.new with phase := .selecting }],[0],1⟩
  obtain ⟨s,conn,hs,hc,hrun,hall⟩ := exec_admissions (s := u) (m := cap) rfl rfl hn
    (by change 0 + n ≤ cap; omega)
  refine ⟨s,conn,hs,hc,hrun.trans (Nat.zero_add n),?_,?_⟩
  · exact fun _ h => (List.not_mem_nil h).elim
  · rintro _ ⟨⟩
    refine ⟨fun _ h => (List.not_mem_nil h).elim,?_⟩
    rintro _ ⟨⟩
    have hnew : Limited cap ⟨.accepting,false,server.streamLimit,[Conn.new],[0],1⟩ := by
      intro c h
      cases List.mem_singleton.mp h
      exact Nat.zero_le cap
    refine ⟨hnew,?_⟩
    rintro _ ⟨⟩
    exact hall

/-- In every run the connections stay within the limit if and only if each request
that gets a permit finds fewer handlers than that on its connection. What bounds a
connection is the whole semaphore and the number `cap` of streams that its transport
keeps open at once, so all runs stay within the limit exactly where one of them does. -/
theorem stream_limit_iff (L : ℕ) {ls : List Label}
    (h : exec step (QuicServerBuilder.mk (some L)).build.init ls = some s) :
    (Always step (Limited L) (QuicServerBuilder.mk (some L)).build.init ls ↔
      Meets step (AdmitsBelow L) (QuicServerBuilder.mk (some L)).build.init ls) ∧
    Limited (max L 64 * 4) s ∧
    ∀ cap, (∀ ms t, exec step (QuicServerBuilder.mk (some L)).build.init ms = some t →
      Always step (Limited cap) (QuicServerBuilder.mk (some L)).build.init ms → Limited L t) ↔
        min cap (max L 64 * 4) ≤ L := by
  have hbound {ms : List Label} {t : State}
      (ht : exec step (QuicServerBuilder.mk (some L)).build.init ms = some t) : Limited (max L 64 * 4) t := by
    intro conn hc
    have htotal : t.permits + t.running = max L 64 * 4 := exec_permits ht
    have hle : conn.running ≤ t.running := countP_le_countP_flatMap _ Conn.tasks hc
    omega
  refine ⟨?_,hbound h,fun cap => ⟨fun hall => ?_,fun hmin ms t ht hcap conn hc => ?_⟩⟩
  · exact always_iff_meets (I := fun _ => True) (fun _ _ _ _ _ _ => trivial)
      (fun _ _ _ _ hP _ hst => step_limited hP hst) trivial
      (fun _ hc => (List.not_mem_nil hc).elim) meets_true h
  · obtain ⟨t,conn,ht,hc,hrun,hcap⟩ := burst_running (QuicServerBuilder.mk (some L)).build
      (n := min cap (max L 64 * 4)) (min_le_right cap _) (min_le_left cap _)
    rw [← hrun]
    exact hall _ t ht hcap conn (hc ▸ List.mem_singleton_self conn)
  · rcases min_le_iff.mp hmin with hle | hle
    · exact (hcap.last ht conn hc).trans hle
    · exact (hbound ht conn hc).trans hle

def twoRequests : List Label :=
  [.incoming,.handshake true,.conn 0 (.built true),.conn 0 .accepted,.conn 0 (.resolved (some "/a")),
   .conn 0 (.request 0 .start),.conn 0 (.request 0 (.ready true)),.conn 0 .accepted,
   .conn 0 (.resolved (some "/b"))]

theorem twoRequests_running : ∃ s conn, exec step (QuicServerBuilder.mk (some 1)).build.init twoRequests =
    some s ∧ s.conns = [conn] ∧ conn.running = 2 := ⟨_,_,rfl,rfl,rfl⟩

theorem stream_limit_exceeded : ¬ ∀ (L : ℕ) (ls : List Label) (s : State),
    exec step (QuicServerBuilder.mk (some L)).build.init ls = some s → Limited L s := by
  intro h
  obtain ⟨s,conn,hs,hc,hrun⟩ := twoRequests_running
  have hle := h 1 twoRequests s hs conn (hc ▸ List.mem_singleton_self conn)
  omega

theorem stream_limit_iff_twoRequests :
    ¬ Meets step (AdmitsBelow 1) (QuicServerBuilder.mk (some 1)).build.init twoRequests := by
  intro hm
  obtain ⟨s,conn,hs,hc,hrun⟩ := twoRequests_running
  have hle := ((stream_limit_iff 1 hs).1.mpr hm).last hs conn (hc ▸ List.mem_singleton_self conn)
  omega

end GrpcQuic.Server
