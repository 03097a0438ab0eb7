import GrpcQuic.Server.RequestEnd
import GrpcQuic.Server.Stalling

/-! # How a drain ends

After the accept loop the server waits for its connections, and they for their
requests. What the service and the tasks do on their own brings them to an end,
as long as no connection task awaits its peer.
-/
namespace GrpcQuic
open Transition

namespace Server
variable {s t : State}

structure DrainInv (s : State) : Prop where
  lifecycle : LifecycleInv s
  opens : ∀ conn ∈ s.conns, conn.Open
  known : ∀ c ∈ s.joinSet, c < s.conns.length

theorem drainInv_init (server : QuicServer) : DrainInv server.init :=
  ⟨lifecycleInv_init server,fun _ h => (List.not_mem_nil h).elim,fun _ h => (List.not_mem_nil h).elim⟩

theorem step_drainInv (h : DrainInv s) {l : Label} (hst : step s l = some t) : DrainInv t := by
  refine ⟨step_lifecycleInv h.lifecycle hst,?_,?_⟩
  · apply forall_conns_step h.opens hst
    · exact fun _ ht => (List.not_mem_nil ht).elim
    · exact fun conn ho => ho
    · exact fun c m old permits conn' _ hold hm => Conn.step_open (h.opens old (List.mem_of_getElem? hold)) hm
    · exact fun _ old _ => abort_open old
  · intro c hc
    rcases step_loop hst with ⟨-,-,ht,hj,-⟩ | ⟨-,-,ht,hj,-⟩ | ⟨-,-,rfl⟩ | ⟨q,m,old,permits,conn',-,-,-,rfl⟩ |
      ⟨q,old,-,-,-,-,rfl⟩ | ⟨-,-,-,rfl⟩ | ⟨-,-,rfl⟩
    · rw [ht]
      exact h.known c (hj ▸ hc)
    · rw [ht,List.length_append,List.length_singleton]
      rcases List.mem_append.mp (hj ▸ hc) with hc | hc
      · exact Nat.lt_succ_of_lt (h.known c hc)
      · rw [List.mem_singleton.mp hc]
        exact Nat.lt_succ_self _
    · rw [State.signal,List.length_map]
      exact h.known c hc
    · rw [List.length_set]
      exact h.known c hc
    · exact h.known c (List.mem_of_mem_erase hc)
    · exact h.known c hc
    · exact (List.not_mem_nil hc).elim

end Server

namespace Peers
open Server

def PortRuns (replies : ℕ → Reply) (x : ℕ × Port) : PortLabel → Prop
  | .conn (.request r l) => ∀ task, x.2.conn.tasks[r]? = some task → task.Runs (replies r) l
  | .conn _ => True
  | _ => False

/-- The steps of one request, with the service's answer. -/
def RequestRuns (replies : ℕ → Reply) (r : ℕ) (x : ℕ × Port) (l : PortLabel) : Prop :=
  ∃ m, l = .conn (.request r m) ∧ ∀ task, x.2.conn.tasks[r]? = some task → task.Runs (replies r) m

theorem RequestRuns.portRuns {replies : ℕ → Reply} {r : ℕ} {x : ℕ × Port} {l : PortLabel}
    (h : RequestRuns replies r x l) : PortRuns replies x l := by
  obtain ⟨m,rfl,hm⟩ := h
  exact hm

def Port.Sound (port : Port) : Prop := ConnInv port.conn ∧ port.conn.Open

/-- The peer owes the credit for the control streams, or the head of the stream
that was handed out last. -/
def Port.Owed (port : Port) : Prop :=
  (port.conn.phase = .building ∧ port.link.granted = false) ∨
    (port.conn.phase = .resolving ∧ ∀ head, port.link.current ≠ some (.complete head))

/-- The task cannot leave its accept loop without its peer. -/
structure Port.Bound (port : Port) : Prop where
  loop : ¬ port.conn.phase.Leaving
  up : port.conn.up = true
  owed : port.Owed ∨ (port.conn.cancel = false ∧ port.link.closing = false)

variable {replies : ℕ → Reply} {permits permits' c : ℕ} {port port' : Port} {s t : State}

theorem port_step_sound (h : port.Sound) {l : PortLabel}
    (hst : Port.step (permits,port) l = some (permits',port')) : port'.Sound := by
  have hconn {m : ConnLabel} {conn : Conn} (hm : port.conn.step permits m = some (permits',conn)) :
      ConnInv conn ∧ conn.Open := ⟨Conn.step_connInv h.1 hm,Conn.step_open h.2 hm⟩
  cases l with
  | grant => cases hst; exact h
  | openStream => cases hst; exact h
  | head r path =>
    simp only [Port.step] at hst
    split at hst
    · cases hst; exact h
    · cases hst
  | close => cases hst; exact h
  | lose =>
    obtain ⟨⟨n,conn⟩,hn,heq⟩ := Option.map_eq_some_iff.mp hst
    cases heq
    exact hconn hn
  | conn m =>
    simp only [Port.step] at hst
    split at hst
    · obtain ⟨⟨n,conn⟩,hn,heq⟩ := Option.map_eq_some_iff.mp hst
      cases heq
      exact hconn hn
    · cases hst

def Port.Ends (replies : ℕ → Reply) (x : ℕ × Port) : Prop :=
  CanMeet Port.step (PortRuns replies) (fun y => y.2.conn.phase = .ended) x

def Port.Over (r : ℕ) (task : RequestTask) (permits : ℕ) (port : Port) (x : ℕ × Port) : Prop :=
  ∃ next : RequestTask, next.ended = true ∧
    x = (permits + if task.ended then 0 else 1,{ port with conn := port.conn.setTask r next })

/-- Each request of a connection can end, and nothing else of it moves. -/
theorem request_served {r : ℕ} {task : RequestTask} (ht : port.conn.tasks[r]? = some task) (ho : task.Open) :
    CanMeet Port.step (RequestRuns replies r) (port.Over r task permits) (permits,port) := by
  have hlt := (List.getElem?_eq_some_iff.mp ht).1
  have hself : port = { port with conn := port.conn.setTask r task } := by
    obtain ⟨-,rfl⟩ := List.getElem?_eq_some_iff.mp ht
    unfold Conn.setTask
    rw [List.set_getElem_self]
  cases he : task.ended with
  | true => exact .now ⟨task,he,Prod.ext (by simp [he]) hself⟩
  | false =>
    refine CanMeet.lift (R := fun u x =>
        x = (permits + if u.ended then 1 else 0,{ port with conn := port.conn.setTask r u }))
      (fun l => .conn (.request r l)) ?_ ?_ (Prod.ext (by simp [he]) hself) (request_ends (replies r) ho)
    · rintro u x l v rfl hl hst
      have hget : (port.conn.setTask r u).tasks[r]? = some u := List.getElem?_set_self hlt
      refine ⟨⟨l,rfl,fun w hw => ?_⟩,_,?_,rfl⟩
      · cases hget.symm.trans hw
        exact hl
      · simp only [Port.step,Port.ready,if_true,Conn.step,hget,Option.bind_some,hst,Option.map_some,Link.after,
          setTask_setTask,not_ended_of_step hst]
        split <;> rfl
    · rintro u x rfl hu
      exact ⟨u,hu,by simp [hu,he]⟩

theorem joining_ends (hI : port.Sound) (hp : port.conn.phase = .joining) : Port.Ends replies (permits,port) := by
  induction hj : port.conn.joinSet generalizing permits port with
  | nil =>
    have hst : Port.step (permits,port) (.conn .drop) = some (permits,{ port with conn := port.conn.dropH3 }) := by
      simp only [Port.step,Port.ready,if_true,Conn.step,hp,hj]
      rfl
    exact .next (.conn .drop) trivial hst (.now rfl)
  | cons r rest ih =>
    have hlt := hI.1.known r (by rw [hj]; exact List.mem_cons_self)
    obtain ⟨task,hget⟩ : ∃ task, port.conn.tasks[r]? = some task := ⟨_,List.getElem?_eq_getElem hlt⟩
    refine (((request_served hget (hI.2 _ (List.mem_of_getElem? hget))).widen fun _ _ => RequestRuns.portRuns).keep
      (I := fun x => x.2.Sound) (fun x l y hx hst => port_step_sound hx hst) hI).trans ?_
    rintro - ⟨hs,next,he,rfl⟩
    generalize (permits + if task.ended then 0 else 1) = n at hs ⊢
    have hnext : (port.conn.setTask r next).tasks[r]? = some next := List.getElem?_set_self hlt
    have hst : Port.step (n,{ port with conn := port.conn.setTask r next }) (.conn (.join r)) =
        some (n,{ port with conn := { port.conn.setTask r next with joinSet := rest } }) := by
      have hjoin : (port.conn.setTask r next).joinSet = r :: rest := hj
      have hphase : (port.conn.setTask r next).phase = .joining := hp
      simp only [Port.step,Port.ready,if_true,Conn.step,hphase,hjoin,hnext,List.contains_cons,BEq.rfl,
        Bool.true_or,Option.any_some,he,Bool.and_self,List.erase_cons_head,Option.map_some]
      rfl
    exact .next (.conn (.join r)) trivial hst (ih (port_step_sound hs hst) hp rfl)

theorem selecting_ends (hI : port.Sound) (hp : port.conn.phase = .selecting)
    (hq : port.conn.cancel = true ∨ port.link.closing = true ∨ port.conn.up = false) :
    Port.Ends replies (permits,port) := by
  by_cases hc : port.conn.cancel = true
  · have hst : Port.step (permits,port) (.conn .cancelled) =
        some (permits,{ port with conn := { port.conn with phase := .shuttingDown, cancel := false } }) := by
      simp only [Port.step,Port.ready,if_true,Conn.step,hp,hc]
      rfl
    have hst' : Port.step (permits,{ port with conn := { port.conn with phase := .shuttingDown, cancel := false } })
        (.conn .shutDown) =
          some (permits,{ port with conn := { port.conn with phase := .joining, cancel := false } }) := rfl
    exact .next (.conn .cancelled) trivial hst (.next (.conn .shutDown) trivial hst'
      (joining_ends (port_step_sound (port_step_sound hI hst) hst') rfl))
  · have hr : port.ready .acceptEnded = true := by
      rcases hq.resolve_left hc with hq | hq
      · exact Bool.or_eq_true_iff.mpr (.inl hq)
      · exact Bool.or_eq_true_iff.mpr (.inr (by rw [hq]; rfl))
    have hst : Port.step (permits,port) (.conn .acceptEnded) =
        some (permits,{ port with conn := { port.conn with phase := .joining } }) := by
      simp only [Port.step,hr,if_true,Conn.step,hp]
      rfl
    exact .next (.conn .acceptEnded) trivial hst (joining_ends (port_step_sound hI hst) rfl)

theorem port_ends (hI : port.Sound) (hb : ¬ port.Bound) : Port.Ends replies (permits,port) := by
  have hquit (hl : ¬ port.conn.phase.Leaving) :
      port.conn.cancel = true ∨ port.link.closing = true ∨ port.conn.up = false := by
    by_contra hno
    push Not at hno
    obtain ⟨hc,hcl,hup⟩ := hno
    exact hb ⟨hl,by simpa using hup,.inr ⟨by simpa using hc,by simpa using hcl⟩⟩
  cases hp : port.conn.phase with
  | building =>
    have hl := not_leaving (.inl hp)
    cases hup : port.conn.up with
    | false =>
      have hst : Port.step (permits,port) (.conn (.built false)) =
          some (permits,{ port with conn := { port.conn with phase := .ended } }) := by
        simp only [Port.step,Port.ready,hup,Bool.not_false,Conn.step,hp]
        rfl
      exact .next (.conn (.built false)) trivial hst (.now rfl)
    | true =>
      have hg : port.link.granted = true := by
        by_contra hg
        exact hb ⟨hl,hup,.inl (.inl ⟨hp,by simpa using hg⟩)⟩
      have hst := @built_step permits _ hp hg
      exact .next (.conn (.built true)) trivial hst (selecting_ends (port_step_sound hI hst) rfl (hquit hl))
  | selecting => exact selecting_ends hI hp (hquit (not_leaving (.inr (.inl hp))))
  | resolving =>
    have hl := not_leaving (.inr (.inr hp))
    obtain ⟨head,hr⟩ : ∃ head, port.ready (.resolved head) = true := by
      cases hup : port.conn.up with
      | false => exact ⟨none,by simp [Port.ready,hup]⟩
      | true =>
        by_contra hno
        push Not at hno
        exact hb ⟨hl,hup,.inl (.inr ⟨hp,fun head hc => hno head (ready_of_current hc)⟩)⟩
    obtain ⟨n,conn,hst,hp',hup',hcan⟩ := resolved_step permits hp hr
    refine .next (.conn (.resolved head)) trivial hst (selecting_ends (port_step_sound hI hst) hp' ?_)
    rw [hup',hcan]
    exact hquit hl
  | shuttingDown =>
    have hst : Port.step (permits,port) (.conn .shutDown) =
        some (permits,{ port with conn := { port.conn with phase := .joining } }) := by
      simp only [Port.step,Port.ready,if_true,Conn.step,hp]
      rfl
    exact .next (.conn .shutDown) trivial hst (joining_ends (port_step_sound hI hst) rfl)
  | joining => exact joining_ends hI hp
  | ended => exact .now hp

/-! ## The server drains -/

/-- The steps of the server, its tasks and the service, each in order and in time. -/
def Serving (replies : ℕ → ℕ → Reply) (s : State) : Label → Prop
  | .port c l => ∀ port, s.port? c = some port → PortRuns (replies c) (s.server.permits,port) l
  | .server .timeout => False
  | .server _ => True
  | _ => False

def OnPort (c : ℕ) (C : ℕ × Port → PortLabel → Prop) (s : State) (l : Label) : Prop :=
  ∃ m, l = .port c m ∧ ∀ port, s.port? c = some port → C (s.server.permits,port) m

def State.setPort (s : State) (c : ℕ) (x : ℕ × Port) : State :=
  { s with
    server := { s.server with permits := x.1, conns := s.server.conns.set c x.2.conn }
    links := s.links.set c x.2.link }

variable {replies : ℕ → ℕ → Reply}

theorem OnPort.serving {c : ℕ} {s : State} {l : Label} (h : OnPort c (PortRuns (replies c)) s l) :
    Serving replies s l := by
  obtain ⟨m,rfl,hm⟩ := h
  exact hm

theorem step_port_eq (s : State) (c : ℕ) (l : PortLabel) : step s (.port c l) =
    (s.port? c).bind fun port => (Port.step (s.server.permits,port) l).map (s.setPort c) := rfl

theorem setPort_setPort (s : State) (c : ℕ) (x y : ℕ × Port) : (s.setPort c x).setPort c y = s.setPort c y := by
  simp only [State.setPort,List.set_set]

theorem setPort_self (hc : s.port? c = some port) : s.setPort c (s.server.permits,port) = s := by
  obtain ⟨hconn,hlink⟩ := port?_eq_some.mp hc
  have hconns : s.server.conns.set c port.conn = s.server.conns := by
    obtain ⟨hlt,hget⟩ := List.getElem?_eq_some_iff.mp hconn
    rw [← hget,List.set_getElem_self]
  have hlinks : s.links.set c port.link = s.links := by
    obtain ⟨hlt,hget⟩ := List.getElem?_eq_some_iff.mp hlink
    rw [← hget,List.set_getElem_self]
  unfold State.setPort
  rw [hconns,hlinks]

theorem setPort_port (hc : s.port? c = some port) (x : ℕ × Port) :
    (s.setPort c x).port? c = some x.2 ∧ ∀ d, d ≠ c → (s.setPort c x).port? d = s.port? d := by
  obtain ⟨hconn,hlink⟩ := port?_eq_some.mp hc
  refine ⟨port?_eq_some.mpr ⟨?_,?_⟩,fun d hd => ?_⟩
  · exact List.getElem?_set_self (List.getElem?_eq_some_iff.mp hconn).1
  · exact List.getElem?_set_self (List.getElem?_eq_some_iff.mp hlink).1
  · simp only [State.setPort,State.port?,List.getElem?_set_ne (Ne.symm hd)]

theorem port_meets {C : ℕ × Port → PortLabel → Prop} {P : ℕ × Port → Prop} (hc : s.port? c = some port)
    (h : CanMeet Port.step C P (s.server.permits,port)) :
    CanMeet step (OnPort c C) (fun t => ∃ x, t = s.setPort c x ∧ P x) s := by
  refine CanMeet.lift (R := fun x u => u = s.setPort c x) (Label.port c) ?_ ?_ (setPort_self hc).symm h
  · rintro x u l y rfl hl hst
    obtain ⟨hport,-⟩ := setPort_port hc x
    refine ⟨⟨l,rfl,fun p hp => ?_⟩,s.setPort c y,?_,rfl⟩
    · cases hport.symm.trans hp
      exact hl
    · rw [step_port_eq,hport,Option.bind_some,show Port.step ((s.setPort c x).server.permits,x.2) l = some y from hst,
        Option.map_some,setPort_setPort]
  · rintro x u rfl hx
    exact ⟨x,rfl,hx⟩

def Orderly (s : State) : Prop := PeersInv s ∧ DrainInv s.server

theorem step_orderly (h : Orderly s) {l : Label} (hst : step s l = some t) : Orderly t := by
  refine ⟨step_peersInv h.1 hst,?_⟩
  rcases step_server hst with ht | ⟨m,hm⟩
  · rw [ht]
    exact h.2
  · exact step_drainInv h.2 hm

theorem exec_orderly {server : QuicServer} {ls : List Label} (h : exec step (.init server) ls = some s) :
    Orderly s :=
  exec_invariant (fun _ _ _ hI hst => step_orderly hI hst) ⟨peersInv_init server,drainInv_init server⟩ h

theorem Orderly.port_sound (h : Orderly s) (hlt : c < s.server.conns.length) :
    ∃ port, s.port? c = some port ∧ port.Sound := by
  have hlink : c < s.links.length := h.1.paired ▸ hlt
  refine ⟨⟨s.server.conns[c],s.links[c]⟩,port?_eq_some.mpr ⟨List.getElem?_eq_getElem hlt,List.getElem?_eq_getElem hlink⟩,
    h.2.lifecycle.server _ (List.getElem_mem hlt),h.2.opens _ (List.getElem_mem hlt)⟩

/-- No request waits for another one, for the accept loops or for a peer to send
anything: in every reachable state it can end by its own steps alone, as the service
answers it, and then its permit is back and all the rest as it was. -/
theorem requests_independent (server : QuicServer) (replies : ℕ → ℕ → Reply) {ls : List Label}
    (h : exec step (.init server) ls = some s) (hc : s.port? c = some port) {r : ℕ} {task : RequestTask}
    (ht : port.conn.tasks[r]? = some task) :
    CanMeet step (OnPort c (RequestRuns (replies c) r))
      (fun t => ∃ x, t = s.setPort c x ∧ port.Over r task s.server.permits x) s := by
  have hmem := List.mem_of_getElem? (port?_eq_some.mp hc).1
  exact port_meets hc (request_served ht ((exec_orderly h).2.opens _ hmem _ (List.mem_of_getElem? ht)))

structure Ended (n : ℕ) (s t : State) : Prop where
  orderly : Orderly t
  phase : t.server.phase = s.server.phase
  joinSet : t.server.joinSet = s.server.joinSet
  length : t.server.conns.length = s.server.conns.length
  before : ∀ c port, c < n → t.port? c = some port → port.conn.phase = .ended
  after : ∀ c, n ≤ c → t.port? c = s.port? c

theorem conns_end (h : Orderly s) (hb : ∀ c port, s.port? c = some port → ¬ port.Bound) {n : ℕ}
    (hn : n ≤ s.server.conns.length) : CanMeet step (Serving replies) (Ended n s) s := by
  induction n with
  | zero => exact .now ⟨h,rfl,rfl,rfl,fun c _ hc => (Nat.not_lt_zero c hc).elim,fun _ _ => rfl⟩
  | succ n ih =>
    refine (ih (by omega)).trans fun t ht => ?_
    have hlt : n < t.server.conns.length := by
      rw [ht.length]
      omega
    obtain ⟨port,hport,hI⟩ := ht.orderly.port_sound hlt
    have hbound : ¬ port.Bound := hb n port ((ht.after n le_rfl).symm.trans hport)
    refine (((port_meets hport (port_ends hI hbound)).widen fun _ _ => OnPort.serving).keep
      (fun _ _ _ hI hst => step_orderly hI hst) ht.orderly).mono ?_
    rintro - ⟨ho,x,rfl,hx⟩
    obtain ⟨hself,hothers⟩ := setPort_port hport x
    refine ⟨ho,ht.phase,ht.joinSet,List.length_set.trans ht.length,fun c p hc hp => ?_,fun c hc => ?_⟩
    · by_cases hcn : c = n
      · subst hcn
        rw [Option.some.inj (hp.symm.trans hself)]
        exact hx
      · exact ht.before c p (by omega) ((hothers c hcn).symm.trans hp)
    · rw [hothers c (by omega)]
      exact ht.after c (by omega)

/-- With all connections over, the server joins their tasks and returns. -/
theorem joins_drained (hp : s.server.phase = .draining)
    (he : ∀ c ∈ s.server.joinSet, ∃ conn, s.server.conns[c]? = some conn ∧ conn.phase = .ended) :
    CanMeet step (Serving replies) (fun t => t.server.phase = .returned false) s := by
  induction hj : s.server.joinSet generalizing s with
  | nil =>
    have hst : step s (.server .drained) = some { s with server := { s.server with phase := .returned false } } := by
      simp only [step,State.ready,if_true,Server.step,hp,hj]
      rfl
    exact .next (.server .drained) trivial hst (.now rfl)
  | cons c rest ih =>
    obtain ⟨conn,hc,hover⟩ := he c (by rw [hj]; exact List.mem_cons_self)
    have hst : step s (.server (.joined c)) = some { s with server := { s.server with joinSet := rest } } := by
      simp only [step,State.ready,if_true,Server.step,hp,hj,hc,hover,List.contains_cons,BEq.rfl,Bool.true_or,
        Option.any_some,decide_true,Bool.and_self,List.erase_cons_head,Option.map_some]
      rfl
    refine .next (.server (.joined c)) trivial hst (ih hp (fun d hd => ?_) rfl)
    exact he d (by rw [hj]; exact List.mem_cons_of_mem c hd)

theorem drains (h : Orderly s) (hp : s.server.phase = .draining)
    (hb : ∀ c port, s.port? c = some port → ¬ port.Bound) :
    CanMeet step (Serving replies) (fun t => t.server.phase = .returned false) s := by
  refine (conns_end h hb le_rfl).trans fun t ht => joins_drained (ht.phase.trans hp) fun c hc => ?_
  have hlt := ht.orderly.2.known c hc
  obtain ⟨port,hport,-⟩ := ht.orderly.port_sound hlt
  exact ⟨port.conn,(port?_eq_some.mp hport).1,ht.before c port (ht.length ▸ hlt) hport⟩

/-! ## A connection that awaits its peer -/

/-- Neither the task nor its requests nor the service can get it past its peer. -/
theorem step_bound (h : port.Bound) {l : ConnLabel}
    (hst : Port.step (permits,port) (.conn l) = some (permits',port')) : port'.Bound := by
  obtain ⟨hl,hup,ho⟩ := h
  simp only [Port.step] at hst
  split at hst
  · rename_i hready
    obtain ⟨⟨n,conn⟩,hn,heq⟩ := Option.map_eq_some_iff.mp hst
    cases heq
    obtain ⟨hmoves,hcancel,hup'⟩ := Conn.step_moves hn
    generalize hp : port.conn.phase = p at hmoves hl
    generalize hp' : conn.phase = p' at hmoves
    unfold Port.Owed at ho
    rw [hp] at ho
    have hkept (hc : l ≠ .cancelled) (hd : l ≠ .drop) (hlo : l ≠ .lost) :
        conn.cancel = port.conn.cancel ∧ conn.up = true :=
      ⟨hcancel.resolve_left hc,((hup'.resolve_left hd).resolve_left hlo).trans hup⟩
    have hstay (hphase : conn.phase = port.conn.phase) (hk : conn.cancel = port.conn.cancel ∧ conn.up = true)
        (hlink : port.link.after l = port.link) : Port.Bound ⟨conn,port.link.after l⟩ := by
      rw [hlink]
      refine ⟨?_,hk.2,?_⟩
      · rw [hphase,hp]
        exact hl
      · unfold Port.Owed
        rw [hphase,hk.1,hp]
        exact ho
    have hloop (hphase : conn.phase = .selecting ∨ conn.phase = .resolving)
        (hk : conn.cancel = port.conn.cancel ∧ conn.up = true)
        (hclear : port.conn.cancel = false ∧ port.link.closing = false)
        (hlink : (port.link.after l).closing = port.link.closing) : Port.Bound ⟨conn,port.link.after l⟩ :=
      ⟨not_leaving (.inr hphase),hk.2,.inr ⟨hk.1.trans hclear.1,hlink.trans hclear.2⟩⟩
    cases hmoves with
    | built =>
      have hg : port.link.granted = true := hready
      simp only [hg,reduceCtorEq,and_false,false_and,or_self,false_or] at ho
      exact hloop (.inl hp') (hkept (by simp) (by simp) (by simp)) ho rfl
    | failed =>
      simp only [Port.ready,hup,Bool.not_true,Bool.false_eq_true,if_false] at hready
    | cancelled =>
      simp only [reduceCtorEq,false_and,or_self,false_or] at ho
      simp [Conn.step,hp,ho.1] at hn
    | accepted =>
      simp only [reduceCtorEq,false_and,or_self,false_or] at ho
      exact hloop (.inr hp') (hkept (by simp) (by simp) (by simp)) ho rfl
    | acceptEnded =>
      simp only [reduceCtorEq,false_and,or_self,false_or] at ho
      simp [Port.ready,ho.2,hup] at hready
    | resolved path =>
      have hcur : port.link.current = some (.complete path) := by
        simpa [Port.ready,hup] using hready
      have hno : ¬ ∀ head, port.link.current ≠ some (.complete head) := fun hne => hne path hcur
      simp only [hno,reduceCtorEq,and_false,false_and,or_self,false_or] at ho
      exact hloop (.inl hp') (hkept (by simp) (by simp) (by simp)) ho rfl
    | shutDown => exact (hl (.inl rfl)).elim
    | drop => exact (hl (.inr (.inl rfl))).elim
    | request _ r m => exact hstay (hp'.trans hp.symm) (hkept (by simp) (by simp) (by simp)) rfl
    | join r => exact (hl (.inr (.inl rfl))).elim
    | deliver _ r => exact hstay (hp'.trans hp.symm) (hkept (by simp) (by simp) (by simp)) rfl
    | lost => cases hready
  · cases hst

/-- A drain without the peers leaves such a connection where it is. -/
theorem step_held_back (hstop : s.server.phase.Stopped) (hb : ∃ port, s.port? c = some port ∧ port.Bound)
    {l : Label} (hl : Serving replies s l) (hst : step s l = some t) :
    ∃ port, t.port? c = some port ∧ port.Bound := by
  obtain ⟨port,hc,hb⟩ := hb
  cases l with
  | attempt => exact hl.elim
  | complete i ok => exact hl.elim
  | port d m =>
    rw [step_port_eq] at hst
    obtain ⟨moved,hd,hst⟩ := Option.bind_eq_some_iff.mp hst
    obtain ⟨x,hm,rfl⟩ := Option.map_eq_some_iff.mp hst
    obtain ⟨hself,hothers⟩ := setPort_port hd x
    by_cases hcd : c = d
    · subst hcd
      cases hc.symm.trans hd
      cases m with
      | conn n => exact ⟨x.2,hself,step_bound hb hm⟩
      | _ => exact (hl port hc).elim
    · exact ⟨port,(hothers c hcd).trans hc,hb⟩
  | server m =>
    simp only [step] at hst
    split at hst
    · rename_i hready
      obtain ⟨server,hm,rfl⟩ := Option.map_eq_some_iff.mp hst
      obtain ⟨hconn,hlink⟩ := port?_eq_some.mp hc
      have hsame (hconns : server.conns = s.server.conns) (hlinks : (s.after m).links = s.links) :
          ∃ port, ({ s.after m with server } : State).port? c = some port ∧ port.Bound :=
        ⟨port,port?_eq_some.mpr ⟨hconns ▸ hconn,hlinks ▸ hlink⟩,hb⟩
      rcases step_loop hm with ⟨hp,-⟩ | ⟨hp,-⟩ | ⟨hp,-⟩ | ⟨d,n,-,-,-,rfl,-⟩ | ⟨d,old,-,rfl,-,-,rfl⟩ |
        ⟨-,rfl,-,rfl⟩ | ⟨-,rfl,-⟩
      · exact (hp hstop).elim
      · exact (hp hstop).elim
      · exact (hp hstop).elim
      · cases hready
      · exact hsame rfl rfl
      · exact hsame rfl rfl
      · exact hl.elim
    · cases hst

/-- The drain is over in order only when every connection task has ended. -/
theorem not_drains (h : Orderly s) (hstop : s.server.phase.Stopped) (hc : s.port? c = some port) (hb : port.Bound) :
    ¬ CanMeet step (Serving replies) (fun t => t.server.phase = .returned false) s := by
  rintro ⟨as,t,has,ht,hret⟩
  have hI : ∀ t, (Orderly t ∧ t.server.phase.Stopped ∧ ∃ port, t.port? c = some port ∧ port.Bound) →
      t.server.phase ≠ .returned false := by
    rintro u ⟨ho,-,p,hp,hbound⟩ hr
    have hne : p.conn.phase ≠ .ended := fun he => hbound.loop (.inr (.inr he))
    have hmem := ho.2.lifecycle.held c p.conn (port?_eq_some.mp hp).1 hne
    rw [ho.2.lifecycle.joined false hr] at hmem
    exact List.not_mem_nil hmem
  refine hI t ?_ hret
  refine exec_invariant_of_meets (C := Serving replies)
    (I := fun t => Orderly t ∧ t.server.phase.Stopped ∧ ∃ port, t.port? c = some port ∧ port.Bound) ?_
    ⟨h,hstop,port,hc,hb⟩ has ht
  rintro u l v ⟨ho,hs,hbound⟩ hl hst
  refine ⟨step_orderly ho hst,?_,step_held_back hs hbound hl hst⟩
  rcases step_server hst with hv | ⟨m,hm⟩
  · rw [hv]
    exact hs
  · exact (step_stopped hs hm).1

/-- After its accept loop the server can return in order, before the timeout and
whatever the service answers, without its peers if and only if no connection that
is up needs its peer to leave its own loop: for the credit of the control streams,
for the head of a request, or, where no shutdown was broadcast, for its end. -/
theorem drain_completes_iff (server : QuicServer) (replies : ℕ → ℕ → Reply) {ls : List Label}
    (h : exec step (.init server) ls = some s) (hp : s.server.phase = .draining) :
    CanMeet step (Serving replies) (fun t => t.server.phase = .returned false) s ↔
      ∀ c port, s.port? c = some port → ¬ port.Bound :=
  ⟨fun hd _ _ hc hb => not_drains (exec_orderly h) (.inl hp) hc hb hd,fun hb => drains (exec_orderly h) hp hb⟩

/-- A connection with one request, of which the peer then opens a second one. -/
def signalledRun : List Label :=
  [.attempt,.complete 0 true,.server .incoming,.server (.handshake true),.port 0 .grant,
    .port 0 (.conn (.built true)),.port 0 .openStream,.port 0 (.conn .accepted),.port 0 (.head 0 (some "/hello")),
    .port 0 (.conn (.resolved (some "/hello"))),.port 0 .openStream,.server .signal]

theorem signalledRun_state : ∃ s port, exec step (.init ⟨256⟩) signalledRun = some s ∧
    s.server.phase = .draining ∧ s.port? 0 = some port ∧ port.conn.phase = .selecting ∧
      port.conn.cancel = true ∧ s.server.conns.length = 1 ∧ port.conn.tasks[0]? = some (.new "/hello") :=
  ⟨_,_,rfl,rfl,rfl,rfl,rfl,rfl,rfl⟩

theorem requests_independent_signalledRun : ∃ (s : State) (port : Port), exec step (.init ⟨256⟩) signalledRun = some s ∧
    CanMeet step (OnPort 0 (RequestRuns (fun _ => ⟨true,some (⟨200,[]⟩,.new [[1,2],[3]] .clean)⟩) 0))
      (fun t => ∃ x, t = s.setPort 0 x ∧ port.Over 0 (.new "/hello") s.server.permits x) s := by
  obtain ⟨s,port,hs,-,hc,-,-,-,ht⟩ := signalledRun_state
  exact ⟨s,port,hs,requests_independent ⟨256⟩ (fun _ _ => ⟨true,some (⟨200,[]⟩,.new [[1,2],[3]] .clean)⟩) hs hc ht⟩

/-- It drains with a service that never gets ready. -/
theorem drain_completes_iff_signalledRun : ∃ s, exec step (.init ⟨256⟩) signalledRun = some s ∧
    CanMeet step (Serving fun _ _ => ⟨false,none⟩) (fun t => t.server.phase = .returned false) s := by
  obtain ⟨s,port,hs,hphase,hc,hp,hcancel,hlen,-⟩ := signalledRun_state
  refine ⟨s,hs,(drain_completes_iff ⟨256⟩ _ hs hphase).mpr fun c port' hc' hb => ?_⟩
  have hzero : c = 0 := by
    have hlt := (List.getElem?_eq_some_iff.mp (port?_eq_some.mp hc').1).1
    omega
  subst hzero
  cases hc.symm.trans hc'
  rcases hb.owed with (⟨ho,-⟩ | ⟨ho,-⟩) | ⟨ho,-⟩
  · cases hp.symm.trans ho
  · cases hp.symm.trans ho
  · cases hcancel.symm.trans ho

end Peers

end GrpcQuic
