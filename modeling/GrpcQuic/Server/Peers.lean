import GrpcQuic.Server.LifecycleSafety
import GrpcQuic.Transition.Reach

/-! # The server and what its peers owe it

The steps of the server that wait for a peer, with what they wait for: the
handshake of the connection attempt that was handed out last, the credit for the
control streams of a connection, and the request head of the stream that was
handed out last. Attempts and streams are handed out in the order of their arrival.
-/
namespace GrpcQuic.Peers
open Transition Server

inductive Progress (α : Type) where
  | incomplete
  | complete (a : α)
  deriving DecidableEq, Repr

/-- What the peer of a connection has done. `accepted` counts the streams that
`h3_conn.accept` has handed out, and a head without a path is malformed. -/
structure Link where
  granted : Bool
  closing : Bool
  streams : List (Progress (Option String))
  accepted : ℕ

def Link.new : Link := ⟨false,false,[],0⟩

def Link.current (link : Link) : Option (Progress (Option String)) := link.streams[link.accepted - 1]?

structure Port where
  conn : Conn
  link : Link

/-- The first four are steps of the peer. `lose` ends the connection under both. -/
inductive PortLabel where
  | grant
  | openStream
  | head (r : ℕ) (path : Option String)
  | close
  | lose
  | conn (l : ConnLabel)

/-- The answer of the peer that a step of the task waits for is there, or the
connection is lost. -/
def Port.ready (port : Port) : ConnLabel → Bool
  | .built ok => if ok then port.link.granted else !port.conn.up
  | .accepted => port.conn.up && decide (port.link.accepted < port.link.streams.length)
  | .acceptEnded => port.link.closing || !port.conn.up
  | .resolved path => decide (port.link.current = some (.complete path)) || (path.isNone && !port.conn.up)
  | .lost => false
  | _ => true

def Link.after (link : Link) : ConnLabel → Link
  | .accepted => { link with accepted := link.accepted + 1 }
  | _ => link

def Port.step : ℕ × Port → PortLabel → Option (ℕ × Port)
  | (permits,port), .grant => some (permits,{ port with link := { port.link with granted := true } })
  | (permits,port), .openStream =>
    some (permits,{ port with link := { port.link with streams := port.link.streams ++ [.incomplete] } })
  | (permits,port), .head r path =>
    if port.link.streams[r]? = some .incomplete then
      some (permits,
        { port with link := { port.link with streams := port.link.streams.set r (.complete path) } })
    else none
  | (permits,port), .close => some (permits,{ port with link := { port.link with closing := true } })
  | (permits,port), .lose =>
    (port.conn.step permits .lost).map fun (permits,conn) => (permits,{ port with conn })
  | (permits,port), .conn l =>
    if port.ready l then
      (port.conn.step permits l).map fun (permits,conn) => (permits,⟨conn,port.link.after l⟩)
    else none

/-- `attempts` are the connection attempts so far, and `taken` counts those that
`inner.accept` has handed out. -/
structure State where
  server : Server.State
  attempts : List (Progress Bool)
  taken : ℕ
  links : List Link

def State.init (server : QuicServer) : State := ⟨server.init,[],0,[]⟩

inductive Label where
  | attempt
  | complete (i : ℕ) (ok : Bool)
  | port (c : ℕ) (l : PortLabel)
  | server (l : Server.Label)

def State.port? (s : State) (c : ℕ) : Option Port :=
  match s.server.conns[c]?, s.links[c]? with
  | some conn, some link => some ⟨conn,link⟩
  | _, _ => none

/-- The accept loop waits for an attempt, or for its handshake. The steps of the
connections are steps of their ports. -/
def State.ready (s : State) : Server.Label → Bool
  | .incoming => decide (s.taken < s.attempts.length)
  | .handshake ok => decide (s.attempts[s.taken - 1]? = some (.complete ok))
  | .conn _ _ => false
  | _ => true

def State.after (s : State) : Server.Label → State
  | .incoming => { s with taken := s.taken + 1 }
  | .handshake true => { s with links := s.links ++ [.new] }
  | _ => s

def step (s : State) : Label → Option State
  | .attempt => some { s with attempts := s.attempts ++ [.incomplete] }
  | .complete i ok =>
    if s.attempts[i]? = some .incomplete then
      some { s with attempts := s.attempts.set i (.complete ok) }
    else none
  | .port c l =>
    (s.port? c).bind fun port =>
      (Port.step (s.server.permits,port) l).map fun (permits,next) =>
        { s with
          server := { s.server with permits, conns := s.server.conns.set c next.conn }
          links := s.links.set c next.link }
  | .server l =>
    if s.ready l then (Server.step s.server l).map fun server => { s.after l with server } else none

variable {permits permits' c : ℕ} {port port' : Port} {s t : State} {l : Label}

theorem port?_eq_some : s.port? c = some port ↔
    s.server.conns[c]? = some port.conn ∧ s.links[c]? = some port.link := by
  unfold State.port?
  cases s.server.conns[c]? with
  | none => simp
  | some conn =>
    cases s.links[c]? with
    | none => simp
    | some link => cases port; simp

/-- The steps of the server are steps of the server on its own. -/
theorem step_server (h : step s l = some t) :
    t.server = s.server ∨ ∃ m, Server.step s.server m = some t.server := by
  cases l with
  | attempt =>
    cases h
    exact .inl rfl
  | complete i ok =>
    simp only [step] at h
    split at h
    · cases h
      exact .inl rfl
    · cases h
  | port c m =>
    obtain ⟨port,hc,h⟩ := Option.bind_eq_some_iff.mp h
    obtain ⟨⟨permits,next⟩,hm,rfl⟩ := Option.map_eq_some_iff.mp h
    obtain ⟨hconn,-⟩ := port?_eq_some.mp hc
    have hlocal (n : ConnLabel) (hn : port.conn.step s.server.permits n = some (permits,next.conn)) :
        Server.step s.server (.conn c n) =
          some { s.server with permits, conns := s.server.conns.set c next.conn } := by
      simp only [Server.step,hconn,Option.bind_some,hn,Option.map_some]
    have hsame (hp : permits = s.server.permits) (hn : next.conn = port.conn) :
        ({ s.server with permits, conns := s.server.conns.set c next.conn } : Server.State) = s.server := by
      obtain ⟨hlt,hget⟩ := List.getElem?_eq_some_iff.mp hconn
      rw [hp,hn,← hget,List.set_getElem_self]
    cases m with
    | grant => cases hm; exact .inl (hsame rfl rfl)
    | openStream => cases hm; exact .inl (hsame rfl rfl)
    | head r path =>
      simp only [Port.step] at hm
      split at hm
      · cases hm
        exact .inl (hsame rfl rfl)
      · cases hm
    | close => cases hm; exact .inl (hsame rfl rfl)
    | lose =>
      obtain ⟨⟨n,conn⟩,hn,heq⟩ := Option.map_eq_some_iff.mp hm
      cases heq
      exact .inr ⟨_,hlocal .lost hn⟩
    | conn n =>
      simp only [Port.step] at hm
      split at hm
      · obtain ⟨⟨k,conn⟩,hn,heq⟩ := Option.map_eq_some_iff.mp hm
        cases heq
        exact .inr ⟨_,hlocal n hn⟩
      · cases hm
  | server m =>
    simp only [step] at h
    split at h
    · obtain ⟨server,hm,rfl⟩ := Option.map_eq_some_iff.mp h
      exact .inr ⟨m,hm⟩
    · cases h

theorem exec_server {server : QuicServer} {ls : List Label} (h : exec step (.init server) ls = some s) :
    ∃ ms, exec Server.step server.init ms = some s.server := by
  have hsim : ∀ (u : State) (v : Server.State) (l : Label) (w : State), v = u.server → True →
      step u l = some w → ∃ ms v', exec Server.step v ms = some v' ∧ v' = w.server := by
    rintro u v l w rfl - hst
    rcases step_server hst with hw | ⟨m,hm⟩
    · exact ⟨[],u.server,rfl,hw.symm⟩
    · exact ⟨[m],w.server,exec_cons_eq_some.mpr ⟨w.server,hm,rfl⟩,rfl⟩
  obtain ⟨ms,v,hv,rfl⟩ := exec_simulation (C := fun _ _ => True) hsim rfl meets_true h
  exact ⟨ms,hv⟩

/-- A step of the task that stays in the accept loop, or leads into it, has found
what it waits for. -/
theorem port_conn_step {n : ConnLabel} (h : Port.step (permits,port) (.conn n) = some (permits',port')) :
    (port.conn.phase = .building ∧ port.link.granted = true ∧ port'.conn.phase = .selecting ∧
      port'.link = port.link ∧ port'.conn.up = port.conn.up) ∨
    (port.conn.phase = .selecting ∧ port.link.accepted < port.link.streams.length ∧
      port'.conn.phase = .resolving ∧ port'.conn.up = port.conn.up ∧
      port'.link = { port.link with accepted := port.link.accepted + 1 }) ∨
    (port.conn.phase = .resolving ∧ (port.conn.up = true → ∃ path, port.link.current = some (.complete path)) ∧
      port'.conn.phase = .selecting ∧ port'.link = port.link ∧ port'.conn.up = port.conn.up) ∨
    (port'.link = port.link ∧ (port'.conn.phase = port.conn.phase ∧ port'.conn.up = port.conn.up ∨
      port'.conn.phase.Leaving)) := by
  simp only [Port.step] at h
  split at h
  · rename_i hready
    obtain ⟨⟨k,conn⟩,hn,heq⟩ := Option.map_eq_some_iff.mp h
    cases heq
    obtain ⟨hmoves,-,hup⟩ := Conn.step_moves hn
    dsimp only at hmoves ⊢
    generalize hp : port.conn.phase = p at hmoves ⊢
    generalize hp' : conn.phase = p' at hmoves ⊢
    have hkept (hd : n ≠ .drop) (hl : n ≠ .lost) : conn.up = port.conn.up :=
      (hup.resolve_left hd).resolve_left hl
    cases hmoves with
    | built => exact .inl ⟨rfl,hready,rfl,rfl,hkept nofun nofun⟩
    | accepted =>
      exact .inr (.inl ⟨rfl,of_decide_eq_true (Bool.and_eq_true_iff.mp hready).2,rfl,hkept nofun nofun,rfl⟩)
    | resolved path =>
      refine .inr (.inr (.inl ⟨rfl,fun hup' => ⟨path,?_⟩,rfl,rfl,hkept nofun nofun⟩))
      rcases Bool.or_eq_true_iff.mp hready with hr | hr
      · exact of_decide_eq_true hr
      · rw [hup'] at hr
        exact (Bool.false_ne_true ((Bool.and_false _).symm.trans hr)).elim
    | failed => exact .inr (.inr (.inr ⟨rfl,.inr (.inr (.inr rfl))⟩))
    | cancelled => exact .inr (.inr (.inr ⟨rfl,.inr (.inl rfl)⟩))
    | acceptEnded => exact .inr (.inr (.inr ⟨rfl,.inr (.inr (.inl rfl))⟩))
    | shutDown => exact .inr (.inr (.inr ⟨rfl,.inr (.inr (.inl rfl))⟩))
    | drop => exact .inr (.inr (.inr ⟨rfl,.inr (.inr (.inr rfl))⟩))
    | request r m => exact .inr (.inr (.inr ⟨rfl,.inl ⟨rfl,hkept nofun nofun⟩⟩))
    | join r => exact .inr (.inr (.inr ⟨rfl,.inl ⟨rfl,hkept nofun nofun⟩⟩))
    | deliver r => exact .inr (.inr (.inr ⟨rfl,.inl ⟨rfl,hkept nofun nofun⟩⟩))
    | lost => cases hready
  · cases h

structure Port.Kept (port port' : Port) : Prop where
  link : port'.link = port.link
  conn : (port'.conn.phase = port.conn.phase ∧ port'.conn.up = port.conn.up) ∨ port'.conn.phase = .ended

theorem Port.Kept.refl (port : Port) : port.Kept port := ⟨rfl,.inl ⟨rfl,rfl⟩⟩

/-- Every port stays where it is; it takes a step of its own, or it is kept. -/
theorem step_port (h : step s l = some t) (hc : s.port? c = some port) :
    ∃ port', t.port? c = some port' ∧ (port.Kept port' ∨
      ∃ m permits', l = .port c m ∧ Port.step (s.server.permits,port) m = some (permits',port')) := by
  obtain ⟨hconn,hlink⟩ := port?_eq_some.mp hc
  cases l with
  | attempt =>
    cases h
    exact ⟨port,hc,.inl (.refl port)⟩
  | complete i ok =>
    simp only [step] at h
    split at h
    · cases h
      exact ⟨port,hc,.inl (.refl port)⟩
    · cases h
  | port d m =>
    obtain ⟨moved,hd,h⟩ := Option.bind_eq_some_iff.mp h
    obtain ⟨⟨permits,next⟩,hm,rfl⟩ := Option.map_eq_some_iff.mp h
    by_cases hcd : d = c
    · subst hcd
      cases hc.symm.trans hd
      refine ⟨next,port?_eq_some.mpr ⟨?_,?_⟩,.inr ⟨m,permits,rfl,hm⟩⟩
      · exact List.getElem?_set_self (List.getElem?_eq_some_iff.mp hconn).1
      · exact List.getElem?_set_self (List.getElem?_eq_some_iff.mp hlink).1
    · refine ⟨port,port?_eq_some.mpr ⟨?_,?_⟩,.inl (.refl port)⟩
      · exact (List.getElem?_set_ne hcd).trans hconn
      · exact (List.getElem?_set_ne hcd).trans hlink
  | server m =>
    simp only [step] at h
    split at h
    · rename_i hready
      obtain ⟨server,hm,rfl⟩ := Option.map_eq_some_iff.mp h
      have hafter : (s.after m).links[c]? = some port.link := by
        unfold State.after
        split
        · exact hlink
        · exact (List.getElem?_append_left (List.getElem?_eq_some_iff.mp hlink).1).trans hlink
        · exact hlink
      obtain ⟨conn',hc',hmoved⟩ := step_place hm hconn
      refine ⟨⟨conn',port.link⟩,port?_eq_some.mpr ⟨hc',hafter⟩,.inl ?_⟩
      rcases hmoved with rfl | rfl | ⟨n,-,rfl,-⟩ | rfl
      · exact .refl port
      · exact ⟨rfl,.inl ⟨rfl,rfl⟩⟩
      · cases hready
      · exact ⟨rfl,.inr rfl⟩
    · cases h

theorem step_attempts (h : step s l = some t) :
    (t.server.phase = s.server.phase ∧ t.taken = s.taken ∧
      (t.attempts = s.attempts ∨ t.attempts = s.attempts ++ [.incomplete] ∨
        ∃ i ok, l = .complete i ok ∧ s.attempts[i]? = some .incomplete ∧
          t.attempts = s.attempts.set i (.complete ok))) ∨
    (s.server.phase = .accepting ∧ t.server.phase = .connecting ∧ s.taken < s.attempts.length ∧
      t.taken = s.taken + 1 ∧ t.attempts = s.attempts) ∨
    (s.server.phase = .connecting ∧ t.server.phase = .accepting ∧ t.taken = s.taken ∧
      t.attempts = s.attempts ∧ ∃ ok, s.attempts[s.taken - 1]? = some (.complete ok)) ∨
    (t.server.phase.Stopped ∧ t.taken = s.taken ∧ t.attempts = s.attempts) := by
  cases l with
  | attempt =>
    cases h
    exact .inl ⟨rfl,rfl,.inr (.inl rfl)⟩
  | complete i ok =>
    simp only [step] at h
    split at h
    · rename_i hi
      cases h
      exact .inl ⟨rfl,rfl,.inr (.inr ⟨i,ok,rfl,hi,rfl⟩)⟩
    · cases h
  | port d m =>
    obtain ⟨moved,-,h⟩ := Option.bind_eq_some_iff.mp h
    obtain ⟨next,-,rfl⟩ := Option.map_eq_some_iff.mp h
    exact .inl ⟨rfl,rfl,.inl rfl⟩
  | server m =>
    simp only [step] at h
    split at h
    · rename_i hready
      obtain ⟨server,hm,rfl⟩ := Option.map_eq_some_iff.mp h
      cases m with
      | incoming =>
        cases hp : s.server.phase <;> simp only [Server.step,hp,reduceCtorEq] at hm
        cases hm
        exact .inr (.inl ⟨rfl,rfl,of_decide_eq_true hready,rfl,rfl⟩)
      | handshake ok =>
        cases hp : s.server.phase <;> simp only [Server.step,hp,reduceCtorEq] at hm
        have hok := of_decide_eq_true hready
        cases ok <;> cases hm <;> exact .inr (.inr (.inl ⟨rfl,rfl,rfl,rfl,_,hok⟩))
      | endpointClosed =>
        cases hp : s.server.phase <;> simp only [Server.step,hp,reduceCtorEq] at hm
        cases hm
        exact .inr (.inr (.inr ⟨.inl rfl,rfl,rfl⟩))
      | signal =>
        cases hp : s.server.phase <;> simp only [Server.step,hp,reduceCtorEq] at hm <;> cases hm <;>
          exact .inr (.inr (.inr ⟨.inl rfl,rfl,rfl⟩))
      | conn d n => cases hready
      | joined d =>
        cases hp : s.server.phase <;> simp only [Server.step,hp,reduceCtorEq] at hm
        split at hm
        · cases hm
          exact .inr (.inr (.inr ⟨.inl rfl,rfl,rfl⟩))
        · cases hm
      | drained =>
        simp only [Server.step] at hm
        split at hm
        · cases hm
          exact .inr (.inr (.inr ⟨.inr ⟨_,rfl⟩,rfl,rfl⟩))
        · cases hm
      | timeout =>
        cases hp : s.server.phase <;> simp only [Server.step,hp,reduceCtorEq] at hm
        cases hm
        exact .inr (.inr (.inr ⟨.inr ⟨_,rfl⟩,rfl,rfl⟩))
    · cases h

/-- Connections and links come together, one pair with each handshake. -/
theorem step_lengths (h : step s l = some t) :
    (t.server.conns.length = s.server.conns.length ∧ t.links.length = s.links.length) ∨
    (t.server.conns = s.server.conns ++ [.new] ∧ t.links = s.links ++ [.new]) := by
  cases l with
  | attempt =>
    cases h
    exact .inl ⟨rfl,rfl⟩
  | complete i ok =>
    simp only [step] at h
    split at h
    · cases h
      exact .inl ⟨rfl,rfl⟩
    · cases h
  | port d m =>
    obtain ⟨moved,-,h⟩ := Option.bind_eq_some_iff.mp h
    obtain ⟨next,-,rfl⟩ := Option.map_eq_some_iff.mp h
    exact .inl ⟨List.length_set,List.length_set⟩
  | server m =>
    simp only [step] at h
    split at h
    · rename_i hready
      obtain ⟨server,hm,rfl⟩ := Option.map_eq_some_iff.mp h
      have hafter (hno : m ≠ .handshake true) : (s.after m).links = s.links := by
        unfold State.after
        split
        · rfl
        · exact (hno rfl).elim
        · rfl
      rcases Server.step_cases hm with ⟨ht,-⟩ | ⟨ht,rfl⟩ | ⟨rfl,rfl⟩ | ⟨d,n,-,-,-,rfl,-⟩ | ⟨rfl,rfl⟩
      · by_cases hno : m = .handshake true
        · subst hno
          cases hp : s.server.phase <;> simp only [Server.step,hp,reduceCtorEq] at hm
          cases hm
          exact .inr ⟨rfl,rfl⟩
        · exact .inl ⟨congrArg List.length ht,congrArg List.length (hafter hno)⟩
      · exact .inr ⟨ht,rfl⟩
      · exact .inl ⟨List.length_map _,rfl⟩
      · cases hready
      · exact .inl ⟨List.length_map _,rfl⟩
    · cases h

structure Port.Ordered (port : Port) : Prop where
  opened : port.link.accepted ≤ port.link.streams.length
  awaited : port.conn.phase = .resolving → 0 < port.link.accepted

structure PeersInv (s : State) : Prop where
  paired : s.links.length = s.server.conns.length
  ports : ∀ c port, s.port? c = some port → port.Ordered
  arrived : s.taken ≤ s.attempts.length
  awaited : s.server.phase = .connecting → 0 < s.taken

theorem peersInv_init (server : QuicServer) : PeersInv (.init server) :=
  ⟨rfl,fun _ _ h => (by cases h),Nat.le_refl 0,fun h => (by cases h)⟩

theorem port_step_ordered (h : port.Ordered) {m : PortLabel}
    (hst : Port.step (permits,port) m = some (permits',port')) : port'.Ordered := by
  cases m with
  | grant =>
    cases hst
    exact ⟨h.opened,h.awaited⟩
  | openStream =>
    cases hst
    refine ⟨?_,h.awaited⟩
    have hle := h.opened
    simp only [List.length_append,List.length_singleton]
    omega
  | head r path =>
    simp only [Port.step] at hst
    split at hst
    · cases hst
      refine ⟨?_,h.awaited⟩
      simp only [List.length_set]
      exact h.opened
    · cases hst
  | close =>
    cases hst
    exact ⟨h.opened,h.awaited⟩
  | lose =>
    obtain ⟨⟨n,conn⟩,hn,heq⟩ := Option.map_eq_some_iff.mp hst
    cases heq
    simp only [Conn.step] at hn
    split at hn
    · cases hn
      exact ⟨h.opened,h.awaited⟩
    · cases hn
  | conn n =>
    rcases port_conn_step hst with ⟨-,-,hp,hl,-⟩ | ⟨-,hlt,-,-,hl⟩ | ⟨-,-,hp,hl,-⟩ | ⟨hl,hp⟩
    · refine ⟨hl ▸ h.opened,fun hr => ?_⟩
      cases hp.symm.trans hr
    · refine ⟨?_,fun _ => ?_⟩ <;> rw [hl]
      · exact hlt
      · exact Nat.succ_pos _
    · refine ⟨hl ▸ h.opened,fun hr => ?_⟩
      cases hp.symm.trans hr
    · refine ⟨hl ▸ h.opened,fun hr => ?_⟩
      rcases hp with ⟨hp,-⟩ | hp
      · exact hl ▸ h.awaited (hp.symm.trans hr)
      · rcases hp with hp | hp | hp <;> cases hp.symm.trans hr

theorem Port.Kept.ordered (h : port.Kept port') (ho : port.Ordered) : port'.Ordered := by
  refine ⟨h.link ▸ ho.opened,fun hr => ?_⟩
  rcases h.conn with ⟨hp,-⟩ | hp
  · exact h.link ▸ ho.awaited (hp.symm.trans hr)
  · cases hp.symm.trans hr

theorem step_ports (h : PeersInv s) (hst : step s l = some t) (hc : t.port? c = some port') :
    port'.Ordered := by
  cases hs : s.port? c with
  | some port =>
    obtain ⟨next,hnext,hk⟩ := step_port hst hs
    cases hnext.symm.trans hc
    rcases hk with hk | ⟨m,permits',-,hm⟩
    · exact hk.ordered (h.ports c port hs)
    · exact port_step_ordered (h.ports c port hs) hm
  | none =>
    obtain ⟨hconn,hlink⟩ := port?_eq_some.mp hc
    have hlt := (List.getElem?_eq_some_iff.mp hlink).1
    have hge : s.links.length ≤ c := by
      by_contra hlt'
      have hl : c < s.links.length := by omega
      have hl' : c < s.server.conns.length := h.paired ▸ hl
      have hsome : s.port? c = some ⟨s.server.conns[c],s.links[c]⟩ :=
        port?_eq_some.mpr ⟨List.getElem?_eq_getElem hl',List.getElem?_eq_getElem hl⟩
      cases hs.symm.trans hsome
    rcases step_lengths hst with ⟨-,hlen⟩ | ⟨hconns,hlinks⟩
    · omega
    · rw [hlinks,List.length_append,List.length_singleton] at hlt
      have hclen : c = s.links.length := by omega
      rw [hlinks,hclen,List.getElem?_concat_length] at hlink
      rw [hconns,hclen,h.paired,List.getElem?_concat_length] at hconn
      obtain ⟨conn,link⟩ := port'
      cases hlink
      cases hconn
      exact ⟨Nat.le_refl 0,fun hp => (by cases hp)⟩

theorem step_peersInv (h : PeersInv s) (hst : step s l = some t) : PeersInv t := by
  have hpaired : t.links.length = t.server.conns.length := by
    rcases step_lengths hst with ⟨hc,hl⟩ | ⟨hc,hl⟩
    · rw [hc,hl,h.paired]
    · rw [hc,hl,List.length_append,List.length_append,h.paired]
      rfl
  have harr := h.arrived
  refine ⟨hpaired,fun c port hc => step_ports h hst hc,?_,?_⟩
  · rcases step_attempts hst with ⟨-,ht,ha | ha | ⟨i,ok,-,-,ha⟩⟩ | ⟨-,-,hlt,ht,ha⟩ | ⟨-,-,ht,ha,-⟩ |
      ⟨-,ht,ha⟩ <;> rw [ht,ha]
    · exact harr
    · simp only [List.length_append,List.length_singleton]
      omega
    · rw [List.length_set]
      exact harr
    · omega
    · exact harr
    · exact harr
  · intro hp
    rcases step_attempts hst with ⟨hp',ht,-⟩ | ⟨-,-,-,ht,-⟩ | ⟨-,hp',-⟩ | ⟨hp',-⟩
    · exact ht ▸ h.awaited (hp'.symm.trans hp)
    · omega
    · cases hp'.symm.trans hp
    · rw [hp] at hp'
      exact (connecting_not_stopped hp').elim

theorem exec_peersInv {server : QuicServer} {ls : List Label} (h : exec step (.init server) ls = some s) :
    PeersInv s :=
  exec_invariant (fun _ _ _ hI hst => step_peersInv hI hst) (peersInv_init server) h

end GrpcQuic.Peers
