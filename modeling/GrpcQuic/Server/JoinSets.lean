import GrpcQuic.Server.StreamLimit

/-! # What the join sets retain

A task that has finished keeps its entry until `join_next` returns it, and both
loops of the server call `join_next` only after they have been left. The entries
are compared with the tasks that are still there.
-/
namespace GrpcQuic.Server
open Transition

def State.openConns (s : State) : ℕ := s.conns.countP fun conn => !decide (conn.phase = .ended)

def State.closedConns (s : State) : ℕ := s.conns.countP fun conn => decide (conn.phase = .ended)

def Conn.Unreaped (conn : Conn) : Prop :=
  conn.phase ≠ .joining → conn.phase ≠ .ended → conn.joinSet.length = conn.tasks.length

structure Unreaped (s : State) : Prop where
  conns : ¬ s.phase.Stopped → s.joinSet.length = s.conns.length
  requests : ∀ conn ∈ s.conns, conn.Unreaped

/-- While the server accepts, its join set holds at most `K` entries more than there
are open connections, and that of a connection at most `stream_limit` entries. -/
def Bounded (server : QuicServer) (K : ℕ) (s : State) : Prop :=
  ¬ s.phase.Stopped → s.joinSet.length ≤ s.openConns + K ∧
    ∀ conn ∈ s.conns, conn.phase = .selecting → conn.joinSet.length ≤ server.streamLimit

/-- A request gets a permit only on a connection that has had fewer than
`stream_limit` so far, and a connection ends only after fewer than `K` others. -/
def Within (server : QuicServer) (K : ℕ) (s : State) (l : Label) : Prop :=
  ¬ s.phase.Stopped → ∀ c m conn, l = .conn c m → s.conns[c]? = some conn →
    (∀ path, m = .resolved (some path) → 0 < s.permits → conn.tasks.length < server.streamLimit) ∧
    (m = .drop ∨ m = .built false → s.closedConns < K)

def ConnPhase.Looping (phase : ConnPhase) : Prop :=
  phase = .building ∨ phase = .selecting ∨ phase = .resolving

def HistoryBounded (server : QuicServer) (K : ℕ) (s : State) : Prop :=
  ¬ s.phase.Stopped → s.closedConns ≤ K ∧
    ∀ conn ∈ s.conns, conn.phase.Looping → conn.tasks.length ≤ server.streamLimit

variable {permits permits' K : ℕ} {conn conn' : Conn} {s t : State} {server : QuicServer}

theorem Conn.step_unreaped {l : ConnLabel} (h : conn.Unreaped)
    (hst : conn.step permits l = some (permits',conn')) : conn'.Unreaped := by
  rcases Conn.step_cases hst with ⟨-,ht,-,he,hj,hset⟩ | ⟨-,rfl⟩ | ⟨path,-,rfl,hp⟩ |
    ⟨r,task,next,-,-,rfl⟩ | ⟨r,task,next,-,-,-,rfl⟩ | ⟨-,-,-,rfl⟩
  · intro hj' _
    rcases hset with hset | ⟨r,task,rfl,-,-,-⟩
    · rw [hset,ht]
      exact h (fun hp => hj' (hj hp)) he
    · obtain ⟨hmoves,-⟩ := Conn.step_moves hst
      generalize conn.phase = p at hmoves
      generalize conn'.phase = p' at hmoves hj'
      cases hmoves
      exact (hj' rfl).elim
  · exact h
  · intro _ _
    have hlen := h (by rw [hp]; rintro ⟨⟩) (by rw [hp]; rintro ⟨⟩)
    simp only [Conn.spawn,List.length_append,hlen,List.length_singleton]
  · intro hj he
    rw [Conn.setTask,List.length_set]
    exact h hj he
  · intro hj he
    rw [Conn.setTask,List.length_set]
    exact h hj he
  · exact fun _ he => (he rfl).elim

theorem step_unreaped (h : Unreaped s) {l : Label} (hst : step s l = some t) : Unreaped t := by
  constructor
  · intro hstop
    rcases step_loop hst with ⟨hp,-,hc,hj,-⟩ | ⟨hp,-,hc,hj,-⟩ | ⟨-,-,rfl⟩ |
      ⟨c,m,old,permits,conn',-,-,-,rfl⟩ | ⟨c,old,hp,-,-,-,rfl⟩ | ⟨-,-,-,rfl⟩ | ⟨-,-,rfl⟩
    · rw [hj,hc]
      exact h.conns hp
    · rw [hj,hc,List.length_append,List.length_append,h.conns hp]
      rfl
    · exact (hstop (.inl rfl)).elim
    · rw [List.length_set]
      exact h.conns hstop
    · exact (hstop (.inl hp)).elim
    · exact (hstop (.inr ⟨false,rfl⟩)).elim
    · exact (hstop (.inr ⟨true,rfl⟩)).elim
  · apply forall_conns_step h.requests hst fun _ _ => rfl
    · exact fun conn hu => hu
    · exact fun c m old permits conn' _ hold hm =>
        Conn.step_unreaped (h.requests old (List.mem_of_getElem? hold)) hm
    · exact fun _ old _ _ he => (he rfl).elim

theorem unreaped_init (server : QuicServer) : Unreaped server.init :=
  ⟨fun _ => rfl,fun _ hc => (List.not_mem_nil hc).elim⟩

theorem conns_length (s : State) : s.conns.length = s.openConns + s.closedConns := by
  have h := s.conns.length_eq_countP_add_countP fun conn => decide (conn.phase = .ended)
  rw [h,Nat.add_comm]
  simp [State.openConns,State.closedConns]

/-- Two ways for a connection task to end, and no way back. -/
theorem Conn.step_ended {l : ConnLabel} (h : conn.step permits l = some (permits',conn')) :
    ((l = .drop ∨ l = .built false) ∧ conn.phase ≠ .ended ∧ conn'.phase = .ended) ∨
      (¬ (l = .drop ∨ l = .built false) ∧ (conn'.phase = .ended ↔ conn.phase = .ended)) := by
  obtain ⟨hmoves,-⟩ := Conn.step_moves h
  generalize conn.phase = p at hmoves ⊢
  generalize conn'.phase = p' at hmoves ⊢
  cases hmoves <;> simp

theorem Conn.step_looping {l : ConnLabel} (h : conn.step permits l = some (permits',conn'))
    (hl : conn'.phase.Looping) : conn.phase.Looping := by
  obtain ⟨hmoves,-⟩ := Conn.step_moves h
  generalize conn.phase = p at hmoves ⊢
  generalize conn'.phase = p' at hmoves hl
  cases hmoves <;> simp_all [ConnPhase.Looping]

/-- A request that gets its permit joins the tasks; no other step changes their number. -/
theorem Conn.step_admission {l : ConnLabel} (h : conn.step permits l = some (permits',conn')) :
    (∃ path, l = .resolved (some path) ∧ 0 < permits ∧ conn'.phase = .selecting ∧
      conn'.tasks.length = conn.tasks.length + 1) ∨
    ((∀ path, l = .resolved (some path) → permits = 0) ∧ conn'.tasks.length = conn.tasks.length) := by
  by_cases hl : ∃ path, l = .resolved (some path) ∧ 0 < permits
  · obtain ⟨path,rfl,hpos⟩ := hl
    obtain ⟨n,rfl⟩ := Nat.exists_eq_succ_of_ne_zero (Nat.pos_iff_ne_zero.mp hpos)
    refine .inl ⟨path,rfl,hpos,?_⟩
    cases hp : conn.phase <;> simp only [Conn.step,hp,reduceCtorEq] at h
    cases h
    exact ⟨rfl,List.length_append⟩
  · have hno (path : String) (he : l = .resolved (some path)) : permits = 0 := by
      by_contra hne
      exact hl ⟨path,he,Nat.pos_iff_ne_zero.mpr hne⟩
    refine .inr ⟨hno,?_⟩
    have hpermits := Conn.step_permits h
    rcases Conn.step_length h with hlen | ⟨path,hp,rfl,-⟩
    · exact hlen
    · rw [running_spawn,hno path hp] at hpermits
      omega

theorem closedConns_step {c : ℕ} {m : ConnLabel} (hst : step s (.conn c m) = some t) :
    ((m = .drop ∨ m = .built false) ∧ t.closedConns = s.closedConns + 1) ∨
      (¬ (m = .drop ∨ m = .built false) ∧ t.closedConns = s.closedConns) := by
  obtain ⟨conn,permits,conn',hc,hm,rfl⟩ := step_conn hst
  have hset := countP_set_add (fun conn => decide (conn.phase = .ended)) hc conn'
  change State.closedConns { s with permits, conns := s.conns.set c conn' } + _ = s.closedConns + _ at hset
  rcases Conn.step_ended hm with ⟨hl,hne,he⟩ | ⟨hl,hiff⟩
  · refine .inl ⟨hl,?_⟩
    simpa [hne,he] using hset
  · refine .inr ⟨hl,?_⟩
    by_cases he : conn.phase = .ended
    · simpa [he,hiff.mpr he] using hset
    · simpa [he,hiff] using hset

/-- While the server accepts, only the end of a connection task adds to the count. -/
theorem closedConns_cases {l : Label} (hst : step s l = some t) (hstop : ¬ t.phase.Stopped) :
    t.closedConns = s.closedConns ∨ (∃ c m conn, l = .conn c m ∧ s.conns[c]? = some conn ∧
      (m = .drop ∨ m = .built false) ∧ t.closedConns = s.closedConns + 1) := by
  rcases step_cases hst with ⟨ht,-⟩ | ⟨ht,-⟩ | ⟨rfl,-⟩ | ⟨c,m,conn,permits,conn',rfl,hc,-,-⟩ | ⟨-,rfl⟩
  · exact .inl (congrArg (List.countP _) ht)
  · refine .inl ?_
    unfold State.closedConns
    rw [ht,List.countP_append]
    rfl
  · exact (hstop (.inl rfl)).elim
  · obtain ⟨hl,hcount⟩ | ⟨-,hcount⟩ := closedConns_step hst
    · exact .inr ⟨c,m,conn,rfl,hc,hl,hcount⟩
    · exact .inl hcount
  · exact (hstop (.inr ⟨true,rfl⟩)).elim

/-- The bounds on the history pass on exactly when the step stays within them. -/
theorem step_historyBounded (h : HistoryBounded server K s) {l : Label} (hst : step s l = some t) :
    HistoryBounded server K t ↔ Within server K s l := by
  constructor
  · rintro hk hs c m conn rfl hc
    obtain ⟨old,permits,conn',hold,hm,ht⟩ := step_conn hst
    cases hc.symm.trans hold
    obtain ⟨hle,hreq⟩ := hk (by rw [ht]; exact hs)
    constructor
    · rintro path rfl hpos
      obtain ⟨path',-,-,hsel,hlen⟩ | ⟨hno,-⟩ := Conn.step_admission hm
      · have hbound := hreq conn' (mem_conns_step hst hc hm) (.inr (.inl hsel))
        omega
      · have hz := hno path rfl
        omega
    · intro hend
      obtain ⟨-,hcount⟩ | ⟨hno,-⟩ := closedConns_step hst
      · omega
      · exact (hno hend).elim
  · intro hw hstop
    have hs : ¬ s.phase.Stopped := fun hs => hstop (step_stopped hs hst).1
    obtain ⟨hle,hreq⟩ := h hs
    constructor
    · obtain hsame | ⟨c,m,conn,hl,hc,hend,hcount⟩ := closedConns_cases hst hstop
      · omega
      · have hfewer := (hw hs c m conn hl hc).2 hend
        omega
    · apply forall_conns_step hreq hst fun _ => Nat.zero_le _
      · exact fun conn hb => hb
      · intro c m conn permits conn' hl hc hm hlooping
        have hbound := hreq conn (List.mem_of_getElem? hc) (Conn.step_looping hm hlooping)
        obtain ⟨path,rfl,hpos,-,hlen⟩ | ⟨-,hlen⟩ := Conn.step_admission hm
        · have hfewer := (hw hs c _ conn hl hc).1 path rfl hpos
          omega
        · omega
      · rintro rfl
        obtain rfl := step_timeout hst
        exact (hstop (.inr ⟨true,rfl⟩)).elim

theorem HistoryBounded.bounded (hu : Unreaped s) (h : HistoryBounded server K s) : Bounded server K s := by
  intro hs
  obtain ⟨hle,hreq⟩ := h hs
  have hlen := hu.conns hs
  have hsum := conns_length s
  refine ⟨by omega,fun conn hconn hp => ?_⟩
  have hkept := hu.requests conn hconn (by rw [hp]; rintro ⟨⟩) (by rw [hp]; rintro ⟨⟩)
  rw [hkept]
  exact hreq conn hconn (.inr (.inl hp))

/-- Where the entries are bounded the history is, as long as it was before. -/
theorem step_bounded (hu : Unreaped s) (h : HistoryBounded server K s) {l : Label}
    (hst : step s l = some t) (hb : Bounded server K t) : HistoryBounded server K t := by
  intro hstop
  have hs : ¬ s.phase.Stopped := fun hs => hstop (step_stopped hs hst).1
  have hut := step_unreaped hu hst
  obtain ⟨hle,hsel⟩ := hb hstop
  obtain ⟨-,hreq⟩ := h hs
  have hlen := hut.conns hstop
  have hsum := conns_length t
  refine ⟨by omega,?_⟩
  apply forall_conns_step hreq hst fun _ => Nat.zero_le _
  · exact fun conn hb => hb
  · rintro c m old permits conn' rfl hc hm hlooping
    obtain ⟨path,-,-,hp,-⟩ | ⟨-,hsame⟩ := Conn.step_admission hm
    · have hconn : conn' ∈ t.conns := mem_conns_step hst hc hm
      have hkept := hut.requests conn' hconn (by rw [hp]; rintro ⟨⟩) (by rw [hp]; rintro ⟨⟩)
      exact hkept ▸ hsel conn' hconn hp
    · rw [hsame]
      exact hreq old (List.mem_of_getElem? hc) (Conn.step_looping hm hlooping)
  · rintro rfl
    obtain rfl := step_timeout hst
    exact (hstop (.inr ⟨true,rfl⟩)).elim

theorem historyBounded_init (server : QuicServer) (K : ℕ) : HistoryBounded server K server.init :=
  fun _ => ⟨Nat.zero_le K,fun _ hc => (List.not_mem_nil hc).elim⟩

/-- In every run the entries stay within their bounds exactly when its history does. -/
theorem bounded_iff_within {ls : List Label} (h : exec step server.init ls = some s) :
    Always step (Bounded server K) server.init ls ↔ Meets step (Within server K) server.init ls := by
  have hiff : Always step (HistoryBounded server K) server.init ls ↔
      Meets step (Within server K) server.init ls :=
    always_iff_meets (I := fun _ => True) (fun _ _ _ _ _ _ => trivial)
      (fun _ _ _ _ hP _ hst => step_historyBounded hP hst) trivial (historyBounded_init server K)
      meets_true h
  rw [← hiff]
  constructor
  · intro hb
    apply hb.carry (I := Unreaped)
    · exact fun u l v hu hst => step_unreaped hu hst
    · exact fun u l v hu hk hst hv => step_bounded hu hk hst hv
    · exact unreaped_init server
    · exact historyBounded_init server K
  · intro hh
    apply hh.imp (I := Unreaped)
    · exact fun u l v hu hst => step_unreaped hu hst
    · exact fun u hu hk => hk.bounded hu
    · exact unreaped_init server

/-! Runs in which everything finishes and the entries stay. -/

theorem exec_request {r : ℕ} {task next : RequestTask} {ms : List RequestLabel} (hc : s.conns = [conn])
    (ht : conn.tasks[r]? = some task) (h : exec RequestTask.step task ms = some next) :
    ∃ t conn', exec step s (ms.map fun m => .conn 0 (.request r m)) = some t ∧ t.phase = s.phase ∧
      t.conns = [conn'] ∧ conn'.phase = conn.phase ∧ conn'.joinSet = conn.joinSet ∧
      conn'.tasks = conn.tasks.set r next := by
  induction ms generalizing s conn task with
  | nil =>
    cases h
    obtain ⟨hlt,rfl⟩ := List.getElem?_eq_some_iff.mp ht
    exact ⟨s,conn,rfl,rfl,hc,rfl,rfl,(List.set_getElem_self hlt).symm⟩
  | cons m ms ih =>
    obtain ⟨mid,hmid,hrest⟩ := exec_cons_eq_some.mp h
    let u : State := { s with
      permits := if mid.ended then s.permits + 1 else s.permits
      conns := [conn.setTask r mid] }
    have hu : step s (.conn 0 (.request r m)) = some u := by
      simp [step,hc,Conn.step,ht,hmid,u]
    have hlt : r < conn.tasks.length := (List.getElem?_eq_some_iff.mp ht).1
    have huc : u.conns = [conn.setTask r mid] := rfl
    obtain ⟨t,conn',hrun,hp,hconns,hp',hj,htasks⟩ := ih huc (by simp [Conn.setTask,hlt]) hrest
    refine ⟨t,conn',exec_cons_eq_some.mpr ⟨u,hu,hrun⟩,hp,hconns,hp',hj,?_⟩
    rw [htasks,Conn.setTask,List.set_set]

def answered (r : ℕ) : List Label :=
  [.conn 0 .accepted,.conn 0 (.resolved (some "/hello"))] ++
    [.start,.ready true,.called (some (⟨200,[]⟩,.new [] .clean)),.send .begin,.send .flush,.send .sent,
      .send .poll].map fun m => .conn 0 (.request r m)

def answeredAll : ℕ → List Label
  | 0 => []
  | n + 1 => answeredAll n ++ answered n

def visit (c : ℕ) : List Label :=
  [.incoming,.handshake true,.conn c (.built true),.conn c .acceptEnded,.conn c .drop]

def visits : ℕ → List Label
  | 0 => []
  | n + 1 => visits n ++ visit n

structure Idle (n : ℕ) (s : State) (conn : Conn) : Prop where
  accepting : s.phase = .accepting
  conns : s.conns = [conn]
  selecting : conn.phase = .selecting
  ended : ∀ task ∈ conn.tasks, task.ended = true
  tasks : conn.tasks.length = n
  entries : conn.joinSet.length = n

theorem exec_answered {n : ℕ} (h : Idle n s conn) (hpos : 0 < s.permits) :
    ∃ t conn', exec step s (answered n) = some t ∧ Idle (n + 1) t conn' := by
  obtain ⟨k,hk⟩ := Nat.exists_eq_succ_of_ne_zero (Nat.pos_iff_ne_zero.mp hpos)
  let u : State := { s with permits := k, conns := [{ conn with phase := .resolving }.spawn "/hello"] }
  have hrun : exec step s [.conn 0 .accepted,.conn 0 (.resolved (some "/hello"))] = some u := by
    simp only [exec,step,h.conns,List.getElem?_cons_zero,Option.bind_some,Conn.step,h.selecting,
      Option.map_some,List.set_cons_zero,hk,u]
  have hnew : ({ conn with phase := .resolving }.spawn "/hello").tasks[n]? = some (.new "/hello") := by
    rw [Conn.spawn,List.getElem?_append_right (by rw [h.tasks]),h.tasks,Nat.sub_self]
    rfl
  have htask : ∃ task, exec RequestTask.step (.new "/hello")
      [.start,.ready true,.called (some (⟨200,[]⟩,.new [] .clean)),.send .begin,.send .flush,.send .sent,
        .send .poll] = some task ∧ task.ended = true := ⟨_,rfl,rfl⟩
  obtain ⟨task,hexec,hended⟩ := htask
  obtain ⟨t,conn',ht,hp,hc,hp',hj,hset⟩ := exec_request (s := u) rfl hnew hexec
  refine ⟨t,conn',?_,⟨hp.trans h.accepting,hc,hp',?_,?_,?_⟩⟩
  · rw [answered,exec_append,hrun]
    exact ht
  · intro old hold
    rw [hset,Conn.spawn,List.set_append_right n task (by rw [h.tasks])] at hold
    rcases List.mem_append.mp hold with hold | hold
    · exact h.ended old hold
    · rw [h.tasks,Nat.sub_self] at hold
      cases List.mem_singleton.mp hold
      exact hended
  · rw [hset,List.length_set,Conn.spawn,List.length_append,h.tasks]
    rfl
  · rw [hj,Conn.spawn,List.length_append,h.entries]
    rfl

theorem Idle.running {n : ℕ} (h : Idle n s conn) : s.running = 0 := by
  unfold State.running
  rw [h.conns,List.flatMap_singleton,List.countP_eq_zero]
  intro task ht
  simp [h.ended task ht]

theorem exec_answeredAll (server : QuicServer) (n : ℕ) : ∃ t conn, exec step server.init
    ([.incoming,.handshake true,.conn 0 (.built true)] ++ answeredAll n) = some t ∧ Idle n t conn := by
  induction n with
  | zero => exact ⟨_,_,rfl,rfl,rfl,rfl,List.forall_mem_nil _,rfl,rfl⟩
  | succ n ih =>
    obtain ⟨s,conn,hs,hidle⟩ := ih
    have hpermits := exec_permits hs
    have hlimit : 0 < server.streamLimit := by unfold QuicServer.streamLimit; omega
    rw [hidle.running] at hpermits
    obtain ⟨t,conn',ht,hnext⟩ := exec_answered hidle (by omega)
    refine ⟨t,conn',?_,hnext⟩
    rw [answeredAll,← List.append_assoc,exec_append,hs]
    exact ht

theorem step_last {cs : List Conn} (conn : Conn) {m : ConnLabel} (hc : s.conns = cs ++ [conn])
    (hm : conn.step s.permits m = some (permits,conn')) :
    step s (.conn cs.length m) = some { s with permits, conns := cs ++ [conn'] } := by
  simp [step,hc,hm]

theorem exec_visit (hp : s.phase = .accepting) : ∃ t conn, exec step s (visit s.conns.length) = some t ∧
    t.phase = .accepting ∧ t.conns = s.conns ++ [conn] ∧ conn.phase = .ended ∧
      t.joinSet.length = s.joinSet.length + 1 := by
  let u : State := { s with
    conns := s.conns ++ [.new],joinSet := s.joinSet ++ [s.conns.length],connections := s.connections + 1 }
  have hu : exec step s [.incoming,.handshake true] = some u := by
    simp [step,hp,u]
  let built : Conn := { Conn.new with phase := .selecting }
  let left : Conn := { Conn.new with phase := .joining }
  have h₁ : step u (.conn s.conns.length (.built true)) = some { u with conns := s.conns ++ [built] } :=
    step_last .new rfl rfl
  have h₂ : step { u with conns := s.conns ++ [built] } (.conn s.conns.length .acceptEnded) =
      some { u with conns := s.conns ++ [left] } := step_last built rfl rfl
  have h₃ : step { u with conns := s.conns ++ [left] } (.conn s.conns.length .drop) =
      some { u with conns := s.conns ++ [left.dropH3] } := step_last left rfl rfl
  refine ⟨{ u with conns := s.conns ++ [left.dropH3] },left.dropH3,?_,hp,rfl,rfl,List.length_append⟩
  have hvisit : visit s.conns.length = [.incoming,.handshake true] ++ [.conn s.conns.length (.built true),
      .conn s.conns.length .acceptEnded,.conn s.conns.length .drop] := rfl
  rw [hvisit,exec_append,hu,Option.bind_some]
  refine exec_cons_eq_some.mpr ⟨_,h₁,exec_cons_eq_some.mpr ⟨_,h₂,exec_cons_eq_some.mpr ⟨_,h₃,rfl⟩⟩⟩

theorem openConns_of_ended (h : ∀ conn ∈ s.conns, conn.phase = .ended) : s.openConns = 0 := by
  unfold State.openConns
  rw [List.countP_eq_zero]
  intro conn hconn
  simp [h conn hconn]

theorem exec_visits (server : QuicServer) (n : ℕ) : ∃ t, exec step server.init (visits n) = some t ∧
    t.phase = .accepting ∧ t.conns.length = n ∧ (∀ conn ∈ t.conns, conn.phase = .ended) ∧
      t.joinSet.length = n := by
  induction n with
  | zero => exact ⟨server.init,rfl,rfl,rfl,List.forall_mem_nil _,rfl⟩
  | succ n ih =>
    obtain ⟨s,hs,hp,hlen,hended,hj⟩ := ih
    obtain ⟨t,conn,ht,hp',hc,he,hj'⟩ := exec_visit hp
    refine ⟨t,?_,hp',?_,?_,by rw [hj',hj]⟩
    · rw [visits,exec_append,hs,← hlen]
      exact ht
    · rw [hc,List.length_append,hlen]
      rfl
    · rw [hc]
      intro old hold
      rcases List.mem_append.mp hold with hold | hold
      · exact hended old hold
      · exact List.mem_singleton.mp hold ▸ he

/-- The entries are bounded in exactly the runs whose history is. Nothing else bounds
them: with every request answered and every connection closed there can be any number. -/
theorem retained_iff (server : QuicServer) :
    (∀ K ls s, exec step server.init ls = some s →
      (Always step (Bounded server K) server.init ls ↔ Meets step (Within server K) server.init ls)) ∧
    (∀ n, ∃ ls s conn, exec step server.init ls = some s ∧ s.phase = .accepting ∧ s.conns = [conn] ∧
      conn.phase = .selecting ∧ conn.running = 0 ∧ conn.joinSet.length = n) ∧
    ∀ n, ∃ ls s, exec step server.init ls = some s ∧ s.phase = .accepting ∧ s.openConns = 0 ∧
      s.joinSet.length = n := by
  refine ⟨fun K ls s h => bounded_iff_within h,fun n => ?_,fun n => ?_⟩
  · obtain ⟨s,conn,hs,hidle⟩ := exec_answeredAll server n
    exact ⟨_,s,conn,hs,hidle.accepting,hidle.conns,hidle.selecting,running_of_ended hidle.ended,
      hidle.entries⟩
  · obtain ⟨s,hs,hp,-,hended,hj⟩ := exec_visits server n
    exact ⟨_,s,hs,hp,openConns_of_ended hended,hj⟩

theorem retained_unbounded : ¬ ∀ server : QuicServer, ∃ K, ∀ (ls : List Label) (s : State),
    exec step server.init ls = some s → Bounded server K s := by
  intro h
  obtain ⟨K,hK⟩ := h ⟨256⟩
  obtain ⟨s,hs,hp,-,hended,hj⟩ := exec_visits ⟨256⟩ (K + 1)
  obtain ⟨hle,-⟩ := hK _ s hs (by rw [hp]; exact accepting_not_stopped)
  have hopen := openConns_of_ended hended
  omega

end GrpcQuic.Server
