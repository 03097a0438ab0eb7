import GrpcQuic.Server.Lifecycle

/-! # What a shutdown delivers

Joining the requests of a connection waits for their last successful send and no
longer, so the drop of the h3 connection races with the transport.
-/
namespace GrpcQuic.Server
open Transition

/-- Once the h3 connection is dropped, every frame passed on successfully has
reached the client. -/
def Conn.Delivered (conn : Conn) : Prop :=
  conn.dropped = true → ∀ task ∈ conn.tasks, task.delivered = task.sent

def Delivered (s : State) : Prop := ∀ conn ∈ s.conns, conn.Delivered

def Conn.Flushed (conn : Conn) : Prop := ∀ task ∈ conn.tasks, task.queued = []

/-- Every step that drops an h3 connection finds its send buffers empty. -/
def DropsFlushed (s : State) (l : Label) : Prop :=
  (∀ c conn, l = .conn c .drop → s.conns[c]? = some conn → conn.Flushed) ∧
    (l = .timeout → ∀ conn ∈ s.conns, conn.Flushed)

structure Conn.Settled (conn : Conn) : Prop where
  phase : conn.phase = .joining ∨ conn.phase = .ended
  ended : ∀ task ∈ conn.tasks, task.ended = true

variable {permits permits' : ℕ} {conn conn' : Conn} {s t : State}

theorem Conn.Delivered.of_open (h : conn.dropped = false) : conn.Delivered :=
  fun hd => (Bool.false_ne_true (h.symm.trans hd)).elim

theorem dropH3_delivered (conn : Conn) (h : ∀ task ∈ conn.tasks, task.Conserved) :
    conn.dropH3.Delivered ↔ conn.Flushed := by
  constructor
  · intro hd task ht
    exact (h task ht).delivered_iff.mp (hd rfl task.discard (List.mem_map_of_mem ht))
  · intro hf _ task ht
    obtain ⟨old,hold,rfl⟩ := mem_discard ht
    exact (h old hold).delivered_iff.mpr (hf old hold)

/-- A step of a connection keeps the delivery exactly when it is no drop with
something left in the buffers. -/
theorem Conn.step_delivered (h : ConnInv conn) (hP : conn.Delivered) {l : ConnLabel}
    (hst : conn.step permits l = some (permits',conn')) :
    conn'.Delivered ↔ (l = .drop → conn.Flushed) := by
  have hopen (hp : conn.phase ≠ .ended) : conn.dropped = false :=
    Bool.eq_false_iff.mpr fun hd => hp (h.gone hd).1
  rcases Conn.step_cases hst with ⟨hl,-,hd,hp,-⟩ | ⟨rfl,rfl⟩ | ⟨path,rfl,rfl,hp⟩ |
    ⟨r,task,next,⟨m,rfl,hm⟩,ht,rfl⟩ | ⟨r,task,next,rfl,hdel,ht,rfl⟩ | ⟨rfl,hp,-,rfl⟩
  · exact ⟨fun _ hl' => (hl hl').elim,fun _ => .of_open (hd.trans (hopen hp))⟩
  · exact ⟨fun _ => nofun,fun _ => hP⟩
  · have hd := hopen (by rw [hp]; exact nofun)
    exact ⟨fun _ => nofun,fun _ => .of_open hd⟩
  · have hd := h.alive ht (.inl ⟨m,hm⟩)
    exact ⟨fun _ => nofun,fun _ => .of_open hd⟩
  · have hd := h.alive ht (.inr hdel)
    exact ⟨fun _ => nofun,fun _ => .of_open hd⟩
  · have hd := hopen (by rw [hp]; exact nofun)
    rw [dropH3_delivered conn (h.conserved hd)]
    exact ⟨fun hf _ => hf,fun hf => hf rfl⟩

theorem Conn.abort_delivered (h : ConnInv conn) (hP : conn.Delivered) :
    conn.abort.Delivered ↔ conn.Flushed := by
  cases hd : conn.dropped with
  | true =>
    refine ⟨fun _ task ht => ((h.gone hd).2 task ht).1,fun _ _ task ht => ?_⟩
    obtain ⟨dead,hdead,rfl⟩ := mem_discard ht
    obtain ⟨old,hold,rfl⟩ := List.mem_map.mp hdead
    exact hP hd old hold
  | false =>
    have hcons : ∀ task ∈ conn.tasks.map RequestTask.drop, task.Conserved := by
      intro task ht
      obtain ⟨old,hold,rfl⟩ := List.mem_map.mp ht
      exact h.conserved hd old hold
    refine (dropH3_delivered { conn with tasks := conn.tasks.map .drop, joinSet := [] } hcons).trans ?_
    exact List.forall_mem_map

/-- A step of the server keeps the delivery exactly when it drops no connection
with something left in its buffers. -/
theorem step_delivered (h : ServerInv s) (hP : Delivered s) {l : Label} (hst : step s l = some t) :
    Delivered t ↔ DropsFlushed s l := by
  constructor
  · intro hd
    constructor
    · rintro c conn rfl hc
      obtain ⟨old,permits,conn',hold,hm,-⟩ := step_conn hst
      cases hc.symm.trans hold
      have hmem := List.mem_of_getElem? hc
      have hiff := Conn.step_delivered (h conn hmem) (hP conn hmem) hm
      exact hiff.mp (hd conn' (mem_conns_step hst hc hm)) rfl
    · rintro rfl conn hc
      obtain rfl := step_timeout hst
      exact (Conn.abort_delivered (h conn hc) (hP conn hc)).mp (hd conn.abort (List.mem_map_of_mem hc))
  · intro hC
    apply forall_conns_step hP hst (.of_open rfl)
    · exact fun conn hd => hd
    · intro c m old permits conn' hl hold hm
      have hmem := List.mem_of_getElem? hold
      exact (Conn.step_delivered (h old hmem) (hP old hmem) hm).mpr fun hd =>
        hC.1 c old (by rw [hl,hd]) hold
    · exact fun hl old hold => (Conn.abort_delivered (h old hold) (hP old hold)).mpr (hC.2 hl old hold)

/-- A settled connection with nothing in its buffers has nothing more to lose. -/
theorem Conn.step_settled (h : conn.Settled) (hf : conn.Flushed) {l : ConnLabel}
    (hst : conn.step permits l = some (permits',conn')) : conn'.Settled ∧ conn'.Flushed := by
  have hmem {r : ℕ} {task : RequestTask} (ht : conn.tasks[r]? = some task) := List.mem_of_getElem? ht
  rcases Conn.step_cases hst with ⟨-,ht,-,hne,hj,-⟩ | ⟨-,rfl⟩ | ⟨path,-,rfl,hp⟩ |
    ⟨r,task,next,⟨m,-,hm⟩,ht,rfl⟩ | ⟨r,task,next,-,hdel,ht,rfl⟩ | ⟨-,-,-,rfl⟩
  · refine ⟨⟨.inl (hj (h.phase.resolve_right hne)),?_⟩,?_⟩
    · rw [ht]
      exact h.ended
    · unfold Conn.Flushed
      rw [ht]
      exact hf
  · exact ⟨⟨h.phase,h.ended⟩,hf⟩
  · rcases h.phase with hp' | hp' <;> cases hp.symm.trans hp'
  · exact (Bool.false_ne_true ((not_ended_of_step hm).symm.trans (h.ended task (hmem ht)))).elim
  · unfold RequestTask.deliver at hdel
    rw [hf task (hmem ht)] at hdel
    cases hdel
  · refine ⟨⟨.inr rfl,fun task ht => ?_⟩,fun task ht => ?_⟩ <;>
      obtain ⟨old,hold,rfl⟩ := mem_discard ht
    · exact h.ended old hold
    · rfl

/-- Joining a settled connection's requests takes no step of anyone else, and
nothing holds back the drop after it. -/
theorem exec_joins {c : ℕ} (hc : s.conns[c]? = some conn) (hp : conn.phase = .joining)
    (he : ∀ task ∈ conn.tasks, task.ended = true) (hk : ∀ r ∈ conn.joinSet, r < conn.tasks.length) :
    ∃ ms t, exec step s ms = some t ∧ .timeout ∉ ms ∧
      t.conns[c]? = some { conn with joinSet := [] }.dropH3 := by
  obtain ⟨hlt,-⟩ := List.getElem?_eq_some_iff.mp hc
  generalize hj : conn.joinSet = js
  induction js generalizing s conn with
  | nil =>
    refine ⟨[.conn c .drop],{ s with conns := s.conns.set c conn.dropH3 },?_,?_,?_⟩
    · refine exec_cons_eq_some.mpr ⟨_,?_,rfl⟩
      simp only [step,hc,Option.bind_some,Conn.step,hp,hj,Option.map_some]
    · simp
    · rw [List.getElem?_set_self hlt,← hj]
  | cons r rest ih =>
    have hr : r < conn.tasks.length := hk r (hj ▸ List.mem_cons_self)
    have hjoin : step s (.conn c (.join r)) =
        some { s with conns := s.conns.set c { conn with joinSet := rest } } := by
      have hcon : ((r :: rest).contains r && conn.tasks[r]?.any RequestTask.ended) = true := by
        rw [List.getElem?_eq_getElem hr,Option.any_some,he _ (List.getElem_mem hr),Bool.and_true]
        exact List.contains_iff_mem.mpr List.mem_cons_self
      simp only [step,hc,Option.bind_some,Conn.step,hp,hcon,if_true,hj,List.erase_cons_head,
        Option.map_some]
    have hc' : (s.conns.set c { conn with joinSet := rest })[c]? = some { conn with joinSet := rest } :=
      List.getElem?_set_self hlt
    have hlt' : c < (s.conns.set c { conn with joinSet := rest }).length := by rwa [List.length_set]
    obtain ⟨ms,t,ht,hms,htc⟩ := ih (s := { s with conns := s.conns.set c { conn with joinSet := rest } })
      hc' hp he (fun q hq => hk q (hj ▸ List.mem_cons_of_mem r hq)) hlt' rfl
    refine ⟨.conn c (.join r) :: ms,t,exec_cons_eq_some.mpr ⟨_,hjoin,ht⟩,?_,htc⟩
    intro hm
    rcases List.mem_cons.mp hm with hm | hm
    · cases hm
    · exact hms hm

theorem Conn.abort_settled (conn : Conn) : conn.abort.Settled ∧ conn.abort.Flushed := by
  refine ⟨⟨.inr rfl,fun task ht => ?_⟩,fun task ht => ?_⟩ <;>
    obtain ⟨dead,hdead,rfl⟩ := mem_discard ht
  · obtain ⟨old,-,rfl⟩ := List.mem_map.mp hdead
    exact drop_ended old
  · rfl

def Safe (c : ℕ) (s : State) : Prop :=
  ∃ conn, s.conns[c]? = some conn ∧ ConnInv conn ∧ conn.Settled ∧ conn.Flushed ∧ conn.Delivered

theorem step_safe {c : ℕ} (h : Safe c s) {l : Label} (hst : step s l = some t) : Safe c t := by
  obtain ⟨conn,hc,hi,hs,hf,hd⟩ := h
  obtain ⟨conn',hc',rfl | rfl | ⟨m,permits,-,hm⟩ | rfl⟩ := step_place hst hc
  · exact ⟨conn',hc',hi,hs,hf,hd⟩
  · exact ⟨_,hc',⟨hi.joined,hi.known,hi.conserved,hi.gone⟩,⟨hs.phase,hs.ended⟩,hf,hd⟩
  · obtain ⟨hs',hf'⟩ := Conn.step_settled hs hf hm
    exact ⟨conn',hc',Conn.step_connInv hi hm,hs',hf',(Conn.step_delivered hi hd hm).mpr fun _ => hf⟩
  · obtain ⟨hs',hf'⟩ := Conn.abort_settled conn
    exact ⟨conn.abort,hc',connInv_abort conn,hs',hf',(Conn.abort_delivered hi hd).mpr hf⟩

/-- In every run the responses are delivered when the h3 connections are dropped
if and only if each drop finds the send buffers of its connection empty. Once a
connection's requests are joined it loses nothing in any continuation if and only
if its buffers are empty already. -/
theorem responses_delivered_iff (server : QuicServer) {ls : List Label}
    (h : exec step server.init ls = some s) :
    (Always step Delivered server.init ls ↔ Meets step DropsFlushed server.init ls) ∧
      (Delivered s → ∀ (c : ℕ) (conn : Conn), s.conns[c]? = some conn → conn.phase = .joining →
        (∀ task ∈ conn.tasks, task.ended = true) →
          ((∀ (ms : List Label) (t : State) (conn' : Conn), exec step s ms = some t → .timeout ∉ ms →
            t.conns[c]? = some conn' → conn'.Delivered) ↔ conn.Flushed)) := by
  have hinv : ServerInv s :=
    exec_invariant (fun _ _ _ hs hst => step_serverInv hs hst) (serverInv_init server) h
  constructor
  · exact always_iff_meets (fun _ _ _ hs _ hst => step_serverInv hs hst)
      (fun _ _ _ hs hP _ hst => step_delivered hs hP hst) (serverInv_init server)
      (fun _ hc => (List.not_mem_nil hc).elim) meets_true h
  · intro hP c conn hc hp he
    have hi := hinv conn (List.mem_of_getElem? hc)
    constructor
    · intro hall
      obtain ⟨ms,t,ht,hms,htc⟩ := exec_joins hc hp he hi.known
      have hd : conn.dropped = false :=
        Bool.eq_false_iff.mpr fun hd => nomatch hp.symm.trans (hi.gone hd).1
      exact (dropH3_delivered { conn with joinSet := [] } (hi.conserved hd)).mp (hall ms t _ ht hms htc)
    · intro hf ms t conn' ht _ hc'
      have hsafe : Safe c s := ⟨conn,hc,hi,⟨.inl hp,he⟩,hf,hP conn (List.mem_of_getElem? hc)⟩
      obtain ⟨conn₀,hc₀,-,-,-,hd⟩ := exec_invariant (fun _ _ _ hs hst => step_safe hs hst) hsafe ht
      cases hc₀.symm.trans hc'
      exact hd

/-- A request is answered in full, the signal fires, and the connection task
leaves before the transport has delivered anything. -/
def hastyShutdown : List Label :=
  [.incoming,.handshake true,.conn 0 (.built true),.conn 0 .accepted,.conn 0 (.resolved (some "/hello")),
   .conn 0 (.request 0 .start),.conn 0 (.request 0 (.ready true)),
   .conn 0 (.request 0 (.called (some (⟨200,[]⟩,.new [] (.trailers [("grpc-status","0")]))))),
   .conn 0 (.request 0 (.send .begin)),.conn 0 (.request 0 (.send .flush)),
   .conn 0 (.request 0 (.send .sent)),.conn 0 (.request 0 (.send .poll)),
   .conn 0 (.request 0 (.send .begin)),.conn 0 (.request 0 (.send .flush)),
   .conn 0 (.request 0 (.send .sent)),.signal,.conn 0 .cancelled,.conn 0 .shutDown,.conn 0 (.join 0),
   .conn 0 .drop,.joined 0,.drained]

def defaultServer : QuicServer := (QuicServerBuilder.mk none).build

theorem hastyShutdown_loses : ∃ s conn task, exec step defaultServer.init hastyShutdown = some s ∧
    s.phase = .returned false ∧ s.conns = [conn] ∧ conn.tasks = [task] ∧ conn.dropped = true ∧
      task.sent = [.head ⟨200,[]⟩,.trailers [("grpc-status","0")]] ∧ task.delivered = [] :=
  ⟨_,_,_,rfl,rfl,rfl,rfl,rfl,rfl,rfl⟩

theorem hastyShutdown_not_always : ¬ Always step Delivered defaultServer.init hastyShutdown := by
  intro hall
  obtain ⟨s,conn,task,hs,-,hc,ht,hd,hsent,hdel⟩ := hastyShutdown_loses
  have hlast := hall.last hs conn (hc ▸ List.mem_singleton_self conn) hd task
    (ht ▸ List.mem_singleton_self task)
  rw [hsent,hdel] at hlast
  cases hlast

theorem shutdown_loses_response : ¬ ∀ (server : QuicServer) (ls : List Label) (s : State),
    exec step server.init ls = some s → .signal ∈ ls → .timeout ∉ ls →
      Always step Delivered server.init ls := by
  intro h
  obtain ⟨s,-,-,hs,-⟩ := hastyShutdown_loses
  exact hastyShutdown_not_always (h _ _ s hs (by simp [hastyShutdown]) (by simp [hastyShutdown]))

theorem responses_delivered_iff_hastyShutdown :
    ¬ Meets step DropsFlushed defaultServer.init hastyShutdown := by
  intro hm
  obtain ⟨s,-,-,hs,-⟩ := hastyShutdown_loses
  exact hastyShutdown_not_always ((responses_delivered_iff defaultServer hs).1.mpr hm)

end GrpcQuic.Server
