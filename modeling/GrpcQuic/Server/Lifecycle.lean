import GrpcQuic.Server.Connection
import GrpcQuic.Transition.Runs

/-! # The server from its first accept to its return

`serve_with_incoming_shutdown`: the accept loop, the broadcast of the shutdown
signal and the drain, over any number of connections. Every other party of the
server is one of its connections.
-/
namespace GrpcQuic.Server
open Transition

structure QuicServerBuilder where
  maxConcurrentStreams : Option ℕ

structure QuicServer where
  maxConcurrentStreams : ℕ

def QuicServerBuilder.build (builder : QuicServerBuilder) : QuicServer :=
  ⟨builder.maxConcurrentStreams.getD 256⟩

/-- The permits of the semaphore that all connections share. -/
def QuicServer.streamLimit (server : QuicServer) : ℕ := max server.maxConcurrentStreams 64 * 4

/-- `connecting` is the handshake that `QuicEndpoint::accept` awaits; `returned`
tells whether the endpoint was closed by force. -/
inductive LoopPhase where
  | accepting
  | connecting
  | draining
  | returned (forced : Bool)
  deriving DecidableEq, Repr

/-- `rejecting` records `reject_new_connections`, `joinSet` holds the connection
tasks not joined yet and `connections` counts the calls of `record_connection`. -/
structure State where
  phase : LoopPhase
  rejecting : Bool
  permits : ℕ
  conns : List Conn
  joinSet : List ℕ
  connections : ℕ

def QuicServer.init (server : QuicServer) : State where
  phase := .accepting
  rejecting := false
  permits := server.streamLimit
  conns := []
  joinSet := []
  connections := 0

inductive Label where
  | incoming
  | endpointClosed
  | handshake (ok : Bool)
  | signal
  | conn (c : ℕ) (l : ConnLabel)
  | joined (c : ℕ)
  | drained
  | timeout

/-- The select drops the accept future, and every receiver there is gets the message. -/
def State.signal (s : State) : State :=
  { s with
    phase := .draining
    rejecting := true
    conns := s.conns.map fun conn => { conn with cancel := true } }

def State.running (s : State) : ℕ := (s.conns.flatMap Conn.tasks).countP fun task => !task.ended

def State.close (s : State) : State :=
  { s with
    phase := .returned true
    permits := s.permits + s.running
    conns := s.conns.map Conn.abort
    joinSet := [] }

def step (s : State) : Label → Option State
  | .incoming =>
    match s.phase with
    | .accepting => some { s with phase := .connecting }
    | _ => none
  | .endpointClosed =>
    match s.phase with
    | .accepting => some { s with phase := .draining }
    | _ => none
  | .handshake ok =>
    match s.phase with
    | .connecting =>
      if ok then
        some { s with
          phase := .accepting
          conns := s.conns ++ [.new]
          joinSet := s.joinSet ++ [s.conns.length]
          connections := s.connections + 1 }
      else some { s with phase := .accepting }
    | _ => none
  | .signal =>
    match s.phase with
    | .accepting => some s.signal
    | .connecting => some s.signal
    | _ => none
  | .conn c l =>
    (s.conns[c]?.bind fun conn => conn.step s.permits l).map fun (permits,conn) =>
      { s with permits, conns := s.conns.set c conn }
  | .joined c =>
    match s.phase with
    | .draining =>
      if s.joinSet.contains c && s.conns[c]?.any fun conn => decide (conn.phase = .ended) then
        some { s with joinSet := s.joinSet.erase c }
      else none
    | _ => none
  | .drained =>
    match s.phase, s.joinSet with
    | .draining, [] => some { s with phase := .returned false }
    | _, _ => none
  | .timeout =>
    match s.phase with
    | .draining => some s.close
    | _ => none

variable {s t : State}

theorem step_conn {c : ℕ} {m : ConnLabel} (h : step s (.conn c m) = some t) :
    ∃ conn permits conn', s.conns[c]? = some conn ∧ conn.step s.permits m = some (permits,conn') ∧
      t = { s with permits, conns := s.conns.set c conn' } := by
  obtain ⟨⟨permits,conn'⟩,hnext,rfl⟩ := Option.map_eq_some_iff.mp h
  obtain ⟨conn,hc,hm⟩ := Option.bind_eq_some_iff.mp hnext
  exact ⟨conn,permits,conn',hc,hm,rfl⟩

theorem mem_conns_step {c : ℕ} {m : ConnLabel} {conn conn' : Conn} {permits : ℕ}
    (h : step s (.conn c m) = some t) (hc : s.conns[c]? = some conn)
    (hm : conn.step s.permits m = some (permits,conn')) : conn' ∈ t.conns := by
  obtain ⟨old,permits',conn'',hold,hm',rfl⟩ := step_conn h
  cases hc.symm.trans hold
  cases hm.symm.trans hm'
  exact List.mem_set (List.getElem?_eq_some_iff.mp hc).1 conn'

theorem step_timeout (h : step s .timeout = some t) : t = s.close := by
  cases hp : s.phase <;> simp only [step,hp,reduceCtorEq] at h
  exact (Option.some.inj h).symm

theorem step_cases {l : Label} (h : step s l = some t) :
    (t.conns = s.conns ∧ (∀ c m, l ≠ .conn c m) ∧ l ≠ .timeout) ∨
    (t.conns = s.conns ++ [.new] ∧ l = .handshake true) ∨
    (t = s.signal ∧ l = .signal) ∨
    (∃ c m conn permits conn', l = .conn c m ∧ s.conns[c]? = some conn ∧
      conn.step s.permits m = some (permits,conn') ∧ t = { s with permits, conns := s.conns.set c conn' }) ∨
    (l = .timeout ∧ t = s.close) := by
  cases l with
  | incoming =>
    cases hp : s.phase <;> simp only [step,hp,reduceCtorEq] at h
    cases h
    exact .inl ⟨rfl,nofun,nofun⟩
  | endpointClosed =>
    cases hp : s.phase <;> simp only [step,hp,reduceCtorEq] at h
    cases h
    exact .inl ⟨rfl,nofun,nofun⟩
  | handshake ok =>
    cases hp : s.phase <;> simp only [step,hp,reduceCtorEq] at h
    cases ok <;> cases h
    · exact .inl ⟨rfl,nofun,nofun⟩
    · exact .inr (.inl ⟨rfl,rfl⟩)
  | signal =>
    cases hp : s.phase <;> simp only [step,hp,reduceCtorEq] at h <;> cases h <;>
      exact .inr (.inr (.inl ⟨rfl,rfl⟩))
  | conn c m =>
    obtain ⟨conn,permits,conn',hc,hm,rfl⟩ := step_conn h
    exact .inr (.inr (.inr (.inl ⟨c,m,conn,permits,conn',rfl,hc,hm,rfl⟩)))
  | joined c =>
    cases hp : s.phase <;> simp only [step,hp,reduceCtorEq] at h
    split at h
    · cases h
      exact .inl ⟨rfl,nofun,nofun⟩
    · cases h
  | drained =>
    simp only [step] at h
    split at h
    · cases h
      exact .inl ⟨rfl,nofun,nofun⟩
    · cases h
  | timeout => exact .inr (.inr (.inr (.inr ⟨rfl,step_timeout h⟩)))

theorem step_place {c : ℕ} {conn : Conn} {l : Label} (h : step s l = some t) (hc : s.conns[c]? = some conn) :
    ∃ conn', t.conns[c]? = some conn' ∧ (conn' = conn ∨ conn' = { conn with cancel := true } ∨
      (∃ m permits, l = .conn c m ∧ conn.step s.permits m = some (permits,conn')) ∨ conn' = conn.abort) := by
  obtain ⟨hlt,-⟩ := List.getElem?_eq_some_iff.mp hc
  rcases step_cases h with ⟨ht,-⟩ | ⟨ht,-⟩ | ⟨rfl,-⟩ | ⟨q,m,old,permits,conn',rfl,hold,hm,rfl⟩ | ⟨-,rfl⟩
  · exact ⟨conn,ht ▸ hc,.inl rfl⟩
  · exact ⟨conn,by rw [ht,List.getElem?_append_left hlt,hc],.inl rfl⟩
  · refine ⟨{ conn with cancel := true },?_,.inr (.inl rfl)⟩
    rw [State.signal,List.getElem?_map,hc]
    rfl
  · by_cases hq : q = c
    · subst hq
      cases hc.symm.trans hold
      exact ⟨conn',List.getElem?_set_self hlt,.inr (.inr (.inl ⟨m,permits,rfl,hm⟩))⟩
    · exact ⟨conn,(List.getElem?_set_ne hq).trans hc,.inl rfl⟩
  · refine ⟨conn.abort,?_,.inr (.inr (.inr rfl))⟩
    rw [State.close,List.getElem?_map,hc]
    rfl

/-- What holds of every connection still does after a step, when it holds of a new
one and the message, the step of a connection and the abort of the task keep it. -/
theorem forall_conns_step {P : Conn → Prop} (hP : ∀ conn ∈ s.conns, P conn) {l : Label}
    (hst : step s l = some t) (hnew : P .new)
    (hsignal : ∀ conn, P conn → P { conn with cancel := true })
    (hconn : ∀ c m conn permits conn', l = .conn c m → s.conns[c]? = some conn →
      conn.step s.permits m = some (permits,conn') → P conn')
    (habort : l = .timeout → ∀ conn ∈ s.conns, P conn.abort) : ∀ conn ∈ t.conns, P conn := by
  intro conn hc
  rcases step_cases hst with ⟨ht,-⟩ | ⟨ht,-⟩ | ⟨rfl,-⟩ | ⟨c,m,old,permits,conn',hl,hold,hm,rfl⟩ | ⟨hl,rfl⟩
  · exact hP conn (ht ▸ hc)
  · rcases List.mem_append.mp (ht ▸ hc) with hc | hc
    · exact hP conn hc
    · exact List.mem_singleton.mp hc ▸ hnew
  · obtain ⟨old,hold,rfl⟩ := List.mem_map.mp hc
    exact hsignal old (hP old hold)
  · rcases List.mem_or_eq_of_mem_set hc with hc | rfl
    · exact hP conn hc
    · exact hconn c m old permits conn hl hold hm
  · obtain ⟨old,hold,rfl⟩ := List.mem_map.mp hc
    exact habort hl old hold

def ServerInv (s : State) : Prop := ∀ conn ∈ s.conns, ConnInv conn

theorem serverInv_init (server : QuicServer) : ServerInv server.init :=
  fun _ h => (List.not_mem_nil h).elim

theorem step_serverInv (h : ServerInv s) {l : Label} (hst : step s l = some t) : ServerInv t := by
  apply forall_conns_step h hst connInv_new
  · exact fun conn hi => ⟨hi.joined,hi.known,hi.conserved,hi.gone⟩
  · exact fun c m old permits conn' _ hold hm => Conn.step_connInv (h old (List.mem_of_getElem? hold)) hm
  · exact fun _ old _ => connInv_abort old

end GrpcQuic.Server
