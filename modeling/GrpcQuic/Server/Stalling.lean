import GrpcQuic.Server.Peers

/-! # What a silent peer holds up

The accept loop awaits a handshake and the connection loop a request head inside
an arm of its select. A party that owes one of them holds up whatever stands
behind it in the queue, and the shutdown of its connection. Time does not pass
here: the loss of a connection, by a timeout of the transport or otherwise, is a
step of its own.
-/
namespace GrpcQuic.Peers
open Transition Server

/-- Attempts, connections and streams whose peers send nothing more. -/
structure Stalled where
  attempt : ℕ → Prop
  conn : ℕ → Prop
  stream : ℕ → ℕ → Prop

def Stalled.peer (c : ℕ) : Stalled := ⟨fun _ => False,fun d => d = c,fun _ _ => False⟩

/-- Steps of a stalled peer or on a stalled stream. The loss of a connection is a
step on each of its streams. -/
def Stalled.ActsOn (S : Stalled) (c : ℕ) : PortLabel → Prop
  | .head r _ => S.conn c ∨ S.stream c r
  | .lose => S.conn c ∨ ∃ r, S.stream c r
  | .conn _ => False
  | _ => S.conn c

def Stalled.Acts (S : Stalled) : Label → Prop
  | .complete i _ => S.attempt i
  | .port c l => S.ActsOn c l
  | _ => False

def Stalled.Reaches (S : Stalled) (P : State → Prop) : State → Prop := CanReach step (fun l => ¬ S.Acts l) P

def State.Unserved (s : State) (i : ℕ) : Prop :=
  (s.server.phase = .accepting ∧ s.taken ≤ i) ∨ (s.server.phase = .connecting ∧ s.taken ≤ i + 1)

/-- The attempt was handed out last, and its connection can be accepted now. -/
def State.Accepts (i : ℕ) (s : State) : Prop :=
  s.taken = i + 1 ∧ ∃ t, step s (.server (.handshake true)) = some t

def Port.Unresolved (port : Port) (r : ℕ) : Prop :=
  ((port.conn.phase = .building ∨ port.conn.phase = .selecting) ∧ port.link.accepted ≤ r) ∨
    (port.conn.phase = .resolving ∧ port.link.accepted ≤ r + 1)

/-- The stream was handed out last, and its request can be dispatched now, or
rejected where no permit is left. -/
def State.Dispatches (c r : ℕ) (path : String) (s : State) : Prop :=
  ∃ port, s.port? c = some port ∧ port.link.accepted = r + 1 ∧
    ∃ t, step s (.port c (.conn (.resolved (some path)))) = some t

def Port.Looping (port : Port) : Prop :=
  port.conn.phase = .selecting ∨ port.conn.phase = .resolving ∨
    (port.conn.phase = .building ∧ port.conn.up = true)

def State.ShutsDown (c : ℕ) (s : State) : Prop := ∃ t, step s (.port c (.conn .cancelled)) = some t

/-- Complete attempts, complete requests and the shutdown need no step of a
stalled party. -/
structure Unblocked (S : Stalled) (s : State) : Prop where
  accepts : ∀ i, s.Unserved i → s.attempts[i]? = some (.complete true) → S.Reaches (State.Accepts i) s
  dispatches : ∀ c port r path, s.port? c = some port → port.conn.up = true → port.Unresolved r →
    port.link.streams[r]? = some (.complete (some path)) → S.Reaches (State.Dispatches c r path) s
  shutsDown : ∀ c port, s.port? c = some port → port.Looping → port.conn.cancel = true →
    (Stalled.peer c).Reaches (State.ShutsDown c) s

/-- No stalled party with something outstanding is first in a queue. -/
structure Clear (S : Stalled) (s : State) : Prop where
  attempts : ∀ i, s.Unserved i → s.attempts[i]? = some (.complete true) →
    ∀ j < i, s.Unserved j → s.attempts[j]? = some .incomplete → ¬ S.attempt j
  streams : ∀ c port r path, s.port? c = some port → port.conn.up = true → port.Unresolved r →
    port.link.streams[r]? = some (.complete (some path)) →
      (port.conn.phase = .building → port.link.granted = false → ¬ S.conn c) ∧
      ∀ q < r, port.Unresolved q → port.link.streams[q]? = some .incomplete → ¬ (S.conn c ∨ S.stream c q)
  shutdown : ∀ c port, s.port? c = some port → port.Looping → port.conn.cancel = true →
    (port.conn.phase = .building → port.link.granted = true) ∧
      (port.conn.phase = .resolving → port.conn.up = true → port.link.current ≠ some .incomplete)

variable {S : Stalled} {c i j q r permits permits' : ℕ} {path : String} {port port' : Port} {s t : State}

theorem handshake_step (ok : Bool) (hp : s.server.phase = .connecting)
    (hok : s.attempts[s.taken - 1]? = some (.complete ok)) :
    ∃ t, step s (.server (.handshake ok)) = some t ∧ t.server.phase = .accepting ∧ t.taken = s.taken ∧
      t.attempts = s.attempts := by
  simp only [step,State.ready,hok,decide_true,if_true,Server.step,hp]
  cases ok <;> exact ⟨_,rfl,rfl,rfl,rfl⟩

theorem incoming_step (hp : s.server.phase = .accepting) (hlt : s.taken < s.attempts.length) :
    ∃ t, step s (.server .incoming) = some t ∧ t.server.phase = .connecting ∧ t.taken = s.taken + 1 ∧
      t.attempts = s.attempts := by
  simp only [step,State.ready,hlt,decide_true,if_true,Server.step,hp]
  exact ⟨_,rfl,rfl,rfl,rfl⟩

/-- The awaited attempt ends without help, or with a step of its own peer. -/
theorem handshake_ends (hp : s.server.phase = .connecting) (ht : s.taken = j + 1) (hj : j < s.attempts.length)
    (hS : s.attempts[j]? = some .incomplete → ¬ S.attempt j) :
    S.Reaches (fun t => t.server.phase = .accepting ∧ t.taken = j + 1 ∧
      ∀ k, k ≠ j → t.attempts[k]? = s.attempts[k]?) s := by
  have hlast : s.taken - 1 = j := by omega
  cases ha : s.attempts[j]? with
  | none => exact absurd (List.getElem?_eq_none_iff.mp ha) (by omega)
  | some progress =>
    cases progress with
    | complete ok =>
      obtain ⟨t,hst,hpt,htt,hat⟩ := handshake_step ok hp (hlast.symm ▸ ha)
      refine .next (a := .server (.handshake ok)) (fun h => h) hst (.now ⟨hpt,htt.trans ht,fun k _ => ?_⟩)
      rw [hat]
    | incomplete =>
      have hst : step s (.complete j true) =
          some { s with attempts := s.attempts.set j (.complete true) } := by
        simp only [step,ha,if_true]
      have hset : (s.attempts.set j (.complete true))[s.taken - 1]? = some (.complete true) := by
        rw [hlast,List.getElem?_set_self hj]
      obtain ⟨t,hst',hpt,htt,hat⟩ :=
        handshake_step true (s := { s with attempts := s.attempts.set j (.complete true) }) hp hset
      refine .next (a := .complete j true) (hS ha) hst
        (.next (a := .server (.handshake true)) (fun h => h) hst' (.now ⟨hpt,htt.trans ht,fun k hk => ?_⟩))
      rw [hat]
      exact List.getElem?_set_ne hk.symm

structure State.Free (S : Stalled) (i : ℕ) (s : State) : Prop where
  phase : s.server.phase = .accepting
  complete : s.attempts[i]? = some (.complete true)
  ahead : ∀ j, s.taken ≤ j → j < i → s.attempts[j]? = some .incomplete → ¬ S.attempt j

theorem attempt_passed (h : s.Free S i) (hlt : s.taken < i) :
    S.Reaches (fun t => t.Free S i ∧ t.taken = s.taken + 1) s := by
  have hi := (List.getElem?_eq_some_iff.mp h.complete).1
  obtain ⟨t,hst,hpt,htt,hat⟩ := incoming_step h.phase (by omega)
  refine .next (a := .server .incoming) (fun h => h) hst ?_
  refine (handshake_ends (S := S) hpt htt (by rw [hat]; omega) ?_).mono ?_
  · intro hj
    rw [hat] at hj
    exact h.ahead s.taken (Nat.le_refl _) hlt hj
  · rintro u ⟨hpu,htu,hau⟩
    have hnext (k : ℕ) (hk : k ≠ s.taken) : u.attempts[k]? = s.attempts[k]? := by
      rw [hau k hk,hat]
    refine ⟨⟨hpu,(hnext i (by omega)).trans h.complete,fun j hj hji hinc => ?_⟩,htu⟩
    exact h.ahead j (by omega) hji ((hnext j (by omega)).symm.trans hinc)

/-- The accept loop gets to a complete attempt past attempts that end. -/
theorem attempts_served (h : s.Free S i) (hi : s.taken ≤ i) : S.Reaches (State.Accepts i) s := by
  refine (CanReach.climb (State.Free S i) State.taken (fun _ hs hlt => attempt_passed hs hlt) h hi).trans ?_
  rintro t ⟨ht,hti⟩
  have hlt := (List.getElem?_eq_some_iff.mp ht.complete).1
  obtain ⟨u,hst,hpu,htu,hau⟩ := incoming_step ht.phase (by omega)
  have hui : u.taken = i + 1 := by omega
  obtain ⟨v,hv,-⟩ := handshake_step true hpu (by rw [hau,hui]; exact ht.complete)
  exact .next (a := .server .incoming) (fun h => h) hst (.now ⟨hui,v,hv⟩)

def State.Barred (j : ℕ) (s : State) : Prop :=
  s.attempts[j]? = some .incomplete ∧ (s.taken ≤ j ∨ (s.taken = j + 1 ∧ s.server.phase ≠ .accepting))

theorem step_barred {l : Label} (h : s.Barred j) (hS : S.attempt j) (hl : ¬ S.Acts l)
    (hst : step s l = some t) : t.Barred j := by
  obtain ⟨hinc,hplace⟩ := h
  have hlt := (List.getElem?_eq_some_iff.mp hinc).1
  rcases step_attempts hst with ⟨hp,ht,ha⟩ | ⟨hp,hp',-,ht,ha⟩ | ⟨-,-,ht,ha,ok,hok⟩ | ⟨hp,ht,ha⟩
  · refine ⟨?_,by rw [hp,ht]; exact hplace⟩
    rcases ha with ha | ha | ⟨k,ok,rfl,-,ha⟩
    · exact ha ▸ hinc
    · rw [ha,List.getElem?_append_left hlt]
      exact hinc
    · have hk : k ≠ j := by
        rintro rfl
        exact hl hS
      rw [ha,List.getElem?_set_ne hk]
      exact hinc
  · refine ⟨ha ▸ hinc,?_⟩
    rcases hplace with hplace | ⟨-,hplace⟩
    · by_cases hj : s.taken = j
      · refine .inr ⟨by omega,?_⟩
        rw [hp']
        rintro ⟨⟩
      · exact .inl (by omega)
    · exact (hplace hp).elim
  · refine ⟨ha ▸ hinc,.inl ?_⟩
    rcases hplace with hplace | ⟨hplace,-⟩
    · omega
    · rw [hplace] at hok
      cases hinc.symm.trans hok
  · refine ⟨ha ▸ hinc,?_⟩
    rcases hplace with hplace | ⟨hplace,-⟩
    · exact .inl (by omega)
    · refine .inr ⟨by omega,fun hp' => ?_⟩
      rw [hp'] at hp
      exact accepting_not_stopped hp

theorem accepts_iff (h : PeersInv s) (hi : s.Unserved i) (hok : s.attempts[i]? = some (.complete true)) :
    S.Reaches (State.Accepts i) s ↔
      ∀ j < i, s.Unserved j → s.attempts[j]? = some .incomplete → ¬ S.attempt j := by
  have hlt := (List.getElem?_eq_some_iff.mp hok).1
  constructor
  · intro hreach j hj hun hinc hS
    have hbar : s.Barred j := by
      refine ⟨hinc,?_⟩
      rcases hun with ⟨-,ht⟩ | ⟨hp,ht⟩
      · exact .inl ht
      · by_cases hj : s.taken = j + 1
        · refine .inr ⟨hj,?_⟩
          rw [hp]
          rintro ⟨⟩
        · exact .inl (by omega)
    refine not_canReach (fun _ _ _ hI hl hst => step_barred hI hS hl hst) hbar ?_ hreach
    rintro t ⟨-,hplace⟩ ⟨ht,-⟩
    omega
  · intro hS
    rcases hi with ⟨hp,ht⟩ | ⟨hp,ht⟩
    · exact attempts_served ⟨hp,hok,fun j hj hji => hS j hji (.inl ⟨hp,hj⟩)⟩ ht
    · have hpos := h.awaited hp
      obtain ⟨k,hk⟩ : ∃ k, s.taken = k + 1 := ⟨s.taken - 1,by omega⟩
      by_cases hki : k = i
      · subst hki
        obtain ⟨t,hst,-⟩ := handshake_step true hp (by rw [hk]; exact hok)
        exact .now ⟨hk,t,hst⟩
      · refine (handshake_ends (S := S) hp hk (by omega) ?_).trans ?_
        · exact hS k (by omega) (.inr ⟨hp,by omega⟩)
        · rintro u ⟨hpu,htu,hau⟩
          refine attempts_served ⟨hpu,(hau i (Ne.symm hki)).trans hok,fun j hj hji hinc => ?_⟩ (by omega)
          exact hS j hji (.inr ⟨hp,by omega⟩) ((hau j (by omega)).symm.trans hinc)

theorem built_step (hp : port.conn.phase = .building) (hg : port.link.granted = true) :
    Port.step (permits,port) (.conn (.built true)) =
      some (permits,{ port with conn := { port.conn with phase := .selecting } }) := by
  simp only [Port.step,Port.ready,hg,if_true,Conn.step,hp]
  rfl

theorem accepted_step (hp : port.conn.phase = .selecting) (hup : port.conn.up = true)
    (hlt : port.link.accepted < port.link.streams.length) :
    Port.step (permits,port) (.conn .accepted) =
      some (permits,⟨{ port.conn with phase := .resolving },
        { port.link with accepted := port.link.accepted + 1 }⟩) := by
  simp only [Port.step,Port.ready,hup,hlt,decide_true,Bool.and_self,if_true,Conn.step,hp]
  rfl

/-- A request is dispatched or rejected, and either way the loop goes on. -/
theorem resolved_step (permits : ℕ) {head : Option String} (hp : port.conn.phase = .resolving)
    (hr : port.ready (.resolved head) = true) :
    ∃ n conn, Port.step (permits,port) (.conn (.resolved head)) = some (n,⟨conn,port.link⟩) ∧
      conn.phase = .selecting ∧ conn.up = port.conn.up ∧ conn.cancel = port.conn.cancel := by
  simp only [Port.step,hr,if_true]
  cases head with
  | none =>
    simp only [Conn.step,hp]
    exact ⟨_,_,rfl,rfl,rfl,rfl⟩
  | some path =>
    cases permits with
    | zero =>
      simp only [Conn.step,hp]
      exact ⟨_,_,rfl,rfl,rfl,rfl⟩
    | succ n =>
      simp only [Conn.step,hp]
      exact ⟨_,_,rfl,rfl,rfl,rfl⟩

theorem ready_of_current {head : Option String} (h : port.link.current = some (.complete head)) :
    port.ready (.resolved head) = true :=
  Bool.or_eq_true_iff.mpr (.inl (decide_eq_true h))

theorem step_of_port {l : PortLabel} (hc : s.port? c = some port)
    (hst : Port.step (s.server.permits,port) l = some (permits',port')) :
    ∃ t, step s (.port c l) = some t ∧ t.port? c = some port' ∧ t.server.permits = permits' := by
  obtain ⟨hconn,hlink⟩ := port?_eq_some.mp hc
  have hst' : step s (.port c l) = some { s with
      server := { s.server with permits := permits', conns := s.server.conns.set c port'.conn }
      links := s.links.set c port'.link } := by
    simp only [step,hc,Option.bind_some,hst,Option.map_some]
  refine ⟨_,hst',port?_eq_some.mpr ⟨?_,?_⟩,rfl⟩
  · exact List.getElem?_set_self (List.getElem?_eq_some_iff.mp hconn).1
  · exact List.getElem?_set_self (List.getElem?_eq_some_iff.mp hlink).1

theorem port_reaches {P : ℕ × Port → Prop} {Q : State → Prop} (hc : s.port? c = some port)
    (hPQ : ∀ x u, u.port? c = some x.2 → P x → Q u)
    (h : CanReach Port.step (fun l => ¬ S.ActsOn c l) P (s.server.permits,port)) : S.Reaches Q s := by
  refine CanReach.lift (R := fun x u => u.port? c = some x.2 ∧ u.server.permits = x.1) (Label.port c)
    (fun _ ha => ha) ?_ (fun x u hR hP => hPQ x u hR.1 hP) ⟨hc,rfl⟩ h
  rintro ⟨n,p⟩ u l ⟨n',p'⟩ ⟨hport,rfl⟩ - hst
  exact step_of_port hport hst

/-- The awaited head comes without help, or with a step on its own stream. -/
theorem head_ends (hp : port.conn.phase = .resolving) (hup : port.conn.up = true)
    (ha : port.link.accepted = q + 1) (hq : q < port.link.streams.length)
    (hS : port.link.streams[q]? = some .incomplete → ¬ (S.conn c ∨ S.stream c q)) :
    CanReach Port.step (fun l => ¬ S.ActsOn c l)
      (fun x => x.2.conn.phase = .selecting ∧ x.2.conn.up = true ∧ x.2.link.accepted = q + 1 ∧
        ∀ k, k ≠ q → x.2.link.streams[k]? = port.link.streams[k]?) (permits,port) := by
  have hlast : port.link.accepted - 1 = q := by omega
  cases hs : port.link.streams[q]? with
  | none => exact absurd (List.getElem?_eq_none_iff.mp hs) (by omega)
  | some progress =>
    cases progress with
    | complete head =>
      have hcur : port.link.current = some (.complete head) := by
        unfold Link.current
        rw [hlast]
        exact hs
      obtain ⟨n,conn,hst,hp',hup',-⟩ := resolved_step permits hp (ready_of_current hcur)
      exact .next (a := .conn (.resolved head)) (fun h => h) hst
        (.now ⟨hp',hup'.trans hup,ha,fun _ _ => rfl⟩)
    | incomplete =>
      let filled : Port :=
        { port with link := { port.link with streams := port.link.streams.set q (.complete none) } }
      have hst : Port.step (permits,port) (.head q none) = some (permits,filled) := by
        simp only [Port.step,hs,if_true]
        rfl
      have hcur : filled.link.current = some (.complete none) := by
        unfold Link.current
        rw [show filled.link.accepted - 1 = q from hlast]
        exact List.getElem?_set_self hq
      obtain ⟨n,conn,hst',hp',hup',-⟩ :=
        resolved_step permits (show filled.conn.phase = .resolving from hp) (ready_of_current hcur)
      refine .next (a := .head q none) (hS hs) hst (.next (a := .conn (.resolved none)) (fun h => h) hst'
        (.now ⟨hp',hup'.trans hup,ha,fun k hk => ?_⟩))
      exact List.getElem?_set_ne hk.symm

def AtStream (r : ℕ) (path : String) (x : ℕ × Port) : Prop :=
  x.2.conn.phase = .resolving ∧ x.2.link.accepted = r + 1 ∧
    x.2.link.streams[r]? = some (.complete (some path))

structure Port.Free (S : Stalled) (c r : ℕ) (path : String) (port : Port) : Prop where
  phase : port.conn.phase = .selecting
  up : port.conn.up = true
  complete : port.link.streams[r]? = some (.complete (some path))
  ahead : ∀ q, port.link.accepted ≤ q → q < r → port.link.streams[q]? = some .incomplete →
    ¬ (S.conn c ∨ S.stream c q)

theorem stream_passed (h : port.Free S c r path) (hlt : port.link.accepted < r) :
    CanReach Port.step (fun l => ¬ S.ActsOn c l)
      (fun x => x.2.Free S c r path ∧ x.2.link.accepted = port.link.accepted + 1) (permits,port) := by
  have hr := (List.getElem?_eq_some_iff.mp h.complete).1
  let taken : Port := ⟨{ port.conn with phase := .resolving },
    { port.link with accepted := port.link.accepted + 1 }⟩
  have htp : taken.conn.phase = .resolving := rfl
  have htup : taken.conn.up = true := h.up
  have hta : taken.link.accepted = port.link.accepted + 1 := rfl
  refine .next (a := .conn .accepted) (fun h => h) (accepted_step h.phase h.up (by omega)) ?_
  refine (head_ends (S := S) (c := c) htp htup hta ?_ ?_).mono ?_
  · exact Nat.lt_trans hlt hr
  · exact h.ahead port.link.accepted (Nat.le_refl _) hlt
  · rintro ⟨m,next⟩ ⟨hp,hup,ha,hs⟩
    refine ⟨⟨hp,hup,(hs r (by omega)).trans h.complete,fun q hq hqr hinc => ?_⟩,ha⟩
    dsimp only at ha hq
    exact h.ahead q (by omega) hqr ((hs q (by omega)).symm.trans hinc)

/-- The accept loop of a connection gets to a complete request past heads that come. -/
theorem streams_served (h : port.Free S c r path) (hr : port.link.accepted ≤ r) :
    CanReach Port.step (fun l => ¬ S.ActsOn c l) (AtStream r path) (permits,port) := by
  refine (CanReach.climb (fun x : ℕ × Port => x.2.Free S c r path) (fun x => x.2.link.accepted)
    (fun _ hx hlt => stream_passed hx hlt) h hr).trans ?_
  rintro ⟨m,next⟩ ⟨hfree,ha⟩
  have hlt := (List.getElem?_eq_some_iff.mp hfree.complete).1
  dsimp only at ha hlt
  exact .next (a := .conn .accepted) (fun h => h) (accepted_step hfree.phase hfree.up (by omega))
    (.now ⟨rfl,congrArg (· + 1) ha,hfree.complete⟩)

theorem AtStream.dispatches {x : ℕ × Port} (hc : s.port? c = some x.2) (h : AtStream r path x) :
    State.Dispatches c r path s := by
  obtain ⟨hp,ha,hs⟩ := h
  have hcur : x.2.link.current = some (.complete (some path)) := by
    unfold Link.current
    rw [ha]
    exact hs
  obtain ⟨n,conn,hst,-⟩ := resolved_step s.server.permits hp (ready_of_current hcur)
  obtain ⟨t,ht,-⟩ := step_of_port hc hst
  exact ⟨x.2,hc,ha,t,ht⟩

theorem dispatches_of_clear (ho : port.Ordered) (hc : s.port? c = some port) (hup : port.conn.up = true)
    (hr : port.Unresolved r) (hok : port.link.streams[r]? = some (.complete (some path)))
    (hg : port.conn.phase = .building → port.link.granted = false → ¬ S.conn c)
    (hS : ∀ q < r, port.Unresolved q → port.link.streams[q]? = some .incomplete →
      ¬ (S.conn c ∨ S.stream c q)) : S.Reaches (State.Dispatches c r path) s := by
  refine port_reaches hc (fun x u hu hx => AtStream.dispatches hu hx) ?_
  rcases hr with ⟨hp | hp,hr⟩ | ⟨hp,hr⟩
  · have hahead (q : ℕ) (hq : port.link.accepted ≤ q) (hqr : q < r) :=
      hS q hqr (.inl ⟨.inl hp,hq⟩)
    let built (g : Bool) : Port := ⟨{ port.conn with phase := .selecting },{ port.link with granted := g }⟩
    have hbuilt (g : Bool) : CanReach Port.step (fun l => ¬ S.ActsOn c l) (AtStream r path)
        (s.server.permits,built g) :=
      streams_served ⟨rfl,hup,hok,hahead⟩ hr
    cases hgr : port.link.granted with
    | true =>
      have hsame : built true = { port with conn := { port.conn with phase := .selecting } } := by
        rw [← hgr]
      exact .next (a := .conn (.built true)) (fun h => h) (built_step hp hgr) (hsame ▸ hbuilt true)
    | false =>
      refine .next (a := .grant) (hg hp hgr) rfl ?_
      exact .next (a := .conn (.built true)) (fun h => h) (built_step hp rfl) (hbuilt true)
  · exact streams_served ⟨hp,hup,hok,fun q hq hqr => hS q hqr (.inl ⟨.inr hp,hq⟩)⟩ hr
  · have hpos := ho.awaited hp
    obtain ⟨k,hk⟩ : ∃ k, port.link.accepted = k + 1 := ⟨port.link.accepted - 1,by omega⟩
    have hlen := ho.opened
    by_cases hkr : k = r
    · exact .now ⟨hp,hkr ▸ hk,hok⟩
    · refine (head_ends hp hup hk (by omega) ?_).trans ?_
      · exact hS k (by omega) (.inr ⟨hp,by omega⟩)
      · rintro ⟨m,next⟩ ⟨hp',hup',ha',hs'⟩
        dsimp only at hp' hup' ha' hs'
        refine streams_served ⟨hp',hup',(hs' r (Ne.symm hkr)).trans hok,fun q hq hqr hinc => ?_⟩ (by omega)
        exact hS q hqr (.inr ⟨hp,by omega⟩) ((hs' q (by omega)).symm.trans hinc)

/-- The shutdown branch, for a connection whose peer owes nothing. -/
theorem shutsDown_of_clear (hc : s.port? c = some port) (hl : port.Looping) (hcancel : port.conn.cancel = true)
    (hg : port.conn.phase = .building → port.link.granted = true)
    (hr : port.conn.phase = .resolving → ∃ head, port.ready (.resolved head) = true) :
    S.Reaches (State.ShutsDown c) s := by
  have hselect (x : ℕ × Port) (u : State) (hu : u.port? c = some x.2)
      (hx : x.2.conn.phase = .selecting ∧ x.2.conn.cancel = true) : State.ShutsDown c u := by
    obtain ⟨hp,hcan⟩ := hx
    have hst : Port.step (u.server.permits,x.2) (.conn .cancelled) =
        some (u.server.permits,⟨{ x.2.conn with phase := .shuttingDown, cancel := false },x.2.link⟩) := by
      simp only [Port.step,Port.ready,if_true,Conn.step,hp,hcan]
      rfl
    obtain ⟨t,ht,-⟩ := step_of_port hu hst
    exact ⟨t,ht⟩
  refine port_reaches hc hselect ?_
  rcases hl with hp | hp | ⟨hp,-⟩
  · exact .now ⟨hp,hcancel⟩
  · obtain ⟨head,hready⟩ := hr hp
    obtain ⟨n,conn,hst,hp',-,hcan⟩ := resolved_step s.server.permits hp hready
    exact .next (a := .conn (.resolved head)) (fun h => h) hst (.now ⟨hp',hcan.trans hcancel⟩)
  · exact .next (a := .conn (.built true)) (fun h => h) (built_step hp (hg hp)) (.now ⟨rfl,hcancel⟩)

section Silence
variable {I : Port → Prop}

/-- What the two parties of a port keep, the whole server keeps. -/
theorem step_keeps (hkept : ∀ p p', p.Kept p' → I p → I p')
    (hstep : ∀ n p m n' p', I p → ¬ S.ActsOn c m → Port.step (n,p) m = some (n',p') → I p') {l : Label}
    (hI : ∃ p, s.port? c = some p ∧ I p) (hl : ¬ S.Acts l) (hst : step s l = some t) :
    ∃ p, t.port? c = some p ∧ I p := by
  obtain ⟨p,hc,hp⟩ := hI
  obtain ⟨p',hc',hk | ⟨m,n',rfl,hm⟩⟩ := step_port hst hc
  · exact ⟨p',hc',hkept p p' hk hp⟩
  · exact ⟨p',hc',hstep _ p m n' p' hp hl hm⟩

end Silence

structure Port.Blocked (q : ℕ) (port : Port) : Prop where
  head : port.link.streams[q]? = some .incomplete
  place : port.link.accepted ≤ q ∨
    (port.link.accepted = q + 1 ∧ (port.conn.phase = .resolving ∨ port.conn.phase.Leaving))
  up : port.conn.up = true ∨ port.conn.phase.Leaving

theorem kept_blocked (hk : port.Kept port') (h : port.Blocked q) : port'.Blocked q := by
  refine ⟨hk.link ▸ h.head,?_,?_⟩
  · rcases h.place with hp | ⟨ha,hp⟩
    · exact .inl (hk.link ▸ hp)
    · refine .inr ⟨hk.link ▸ ha,?_⟩
      rcases hk.conn with ⟨hphase,-⟩ | hphase
      · exact hphase ▸ hp
      · exact .inr (.inr (.inr hphase))
  · rcases hk.conn with ⟨hphase,hup⟩ | hphase
    · rcases h.up with hu | hu
      · exact .inl (hup.trans hu)
      · exact .inr (hphase ▸ hu)
    · exact .inr (.inr (.inr hphase))

theorem not_leaving {p : ConnPhase} (hp : p = .building ∨ p = .selecting ∨ p = .resolving) : ¬ p.Leaving := by
  rintro (hl | hl | hl) <;> rcases hp with hp | hp | hp <;> cases hp.symm.trans hl

theorem step_blocked (h : port.Blocked q) (hS : S.conn c ∨ S.stream c q) {l : PortLabel}
    (hl : ¬ S.ActsOn c l) (hst : Port.step (permits,port) l = some (permits',port')) : port'.Blocked q := by
  have hlt := (List.getElem?_eq_some_iff.mp h.head).1
  cases l with
  | grant =>
    cases hst
    exact ⟨h.head,h.place,h.up⟩
  | openStream =>
    cases hst
    exact ⟨(List.getElem?_append_left hlt).trans h.head,h.place,h.up⟩
  | head r path =>
    simp only [Port.step] at hst
    split at hst
    · cases hst
      refine ⟨?_,h.place,h.up⟩
      have hrq : r ≠ q := by
        rintro rfl
        exact hl hS
      exact (List.getElem?_set_ne hrq).trans h.head
    · cases hst
  | close =>
    cases hst
    exact ⟨h.head,h.place,h.up⟩
  | lose =>
    refine (hl ?_).elim
    rcases hS with hS | hS
    · exact .inl hS
    · exact .inr ⟨q,hS⟩
  | conn n =>
    rcases port_conn_step hst with ⟨hp,-,hp',hk,hu⟩ | ⟨hp,-,hp',hu,hk⟩ | ⟨hp,hcur,hp',hk,hu⟩ | ⟨hk,hp⟩
    · have hnl := not_leaving (.inl hp)
      refine ⟨hk ▸ h.head,.inl ?_,.inl (hu.trans (h.up.resolve_right hnl))⟩
      rcases h.place with hplace | ⟨-,hr | hr⟩
      · exact hk ▸ hplace
      · cases hp.symm.trans hr
      · exact (hnl hr).elim
    · have hnl := not_leaving (.inr (.inl hp))
      have hplace : port.link.accepted ≤ q := by
        rcases h.place with hplace | ⟨-,hr | hr⟩
        · exact hplace
        · cases hp.symm.trans hr
        · exact (hnl hr).elim
      refine ⟨hk ▸ h.head,?_,.inl (hu.trans (h.up.resolve_right hnl))⟩
      rw [hk]
      by_cases hq : port.link.accepted = q
      · exact .inr ⟨congrArg (· + 1) hq,.inl hp'⟩
      · exact .inl (Nat.lt_of_le_of_ne hplace hq)
    · have hnl := not_leaving (.inr (.inr hp))
      have hup := h.up.resolve_right hnl
      refine ⟨hk ▸ h.head,.inl ?_,.inl (hu.trans hup)⟩
      rcases h.place with hplace | ⟨ha,-⟩
      · exact hk ▸ hplace
      · obtain ⟨head,hcur⟩ := hcur hup
        unfold Link.current at hcur
        rw [ha] at hcur
        cases h.head.symm.trans hcur
    · refine ⟨hk ▸ h.head,?_,?_⟩
      · rcases h.place with hplace | ⟨ha,hplace⟩
        · exact .inl (hk ▸ hplace)
        · refine .inr ⟨hk ▸ ha,?_⟩
          rcases hp with ⟨hp,-⟩ | hp
          · exact hp ▸ hplace
          · exact .inr hp
      · rcases hp with ⟨hp,hu⟩ | hp
        · rcases h.up with hup | hup
          · exact .inl (hu.trans hup)
          · exact .inr (hp ▸ hup)
        · exact .inr hp

def Port.Held (port : Port) : Prop :=
  port.conn.phase.Leaving ∨ (port.conn.up = true ∧
    ((port.conn.phase = .building ∧ port.link.granted = false) ∨
      (port.conn.phase = .resolving ∧ port.link.current = some .incomplete)))

theorem kept_held (hk : port.Kept port') (h : port.Held) : port'.Held := by
  rcases hk.conn with ⟨hphase,hup⟩ | hphase
  · unfold Port.Held
    rw [hphase,hup,hk.link]
    exact h
  · exact .inl (.inr (.inr hphase))

/-- A peer that sends nothing more holds the task where it is. -/
theorem step_held (h : port.Held) (hS : S.conn c) {l : PortLabel} (hl : ¬ S.ActsOn c l)
    (hst : Port.step (permits,port) l = some (permits',port')) : port'.Held := by
  cases l with
  | conn n =>
    rcases port_conn_step hst with ⟨hp,hg,-⟩ | ⟨hp,-⟩ | ⟨hp,hcur,-⟩ | ⟨hk,hp⟩
    · rcases h with h | ⟨-,⟨-,h⟩ | ⟨h,-⟩⟩
      · exact (not_leaving (.inl hp) h).elim
      · cases hg.symm.trans h
      · cases hp.symm.trans h
    · rcases h with h | ⟨-,⟨h,-⟩ | ⟨h,-⟩⟩
      · exact (not_leaving (.inr (.inl hp)) h).elim
      · cases hp.symm.trans h
      · cases hp.symm.trans h
    · rcases h with h | ⟨hup,⟨h,-⟩ | ⟨-,h⟩⟩
      · exact (not_leaving (.inr (.inr hp)) h).elim
      · cases hp.symm.trans h
      · obtain ⟨head,hcur⟩ := hcur hup
        cases h.symm.trans hcur
    · rcases hp with ⟨hp,hup⟩ | hp
      · unfold Port.Held
        rw [hp,hup,hk]
        exact h
      · exact .inl hp
  | head r path => exact (hl (.inl hS)).elim
  | lose => exact (hl (.inl hS)).elim
  | _ => exact (hl hS).elim

/-- A task that is held neither dispatches a request nor shuts its connection down. -/
theorem Port.Held.disabled (h : port.Held) {l : ConnLabel} (hl : l = .cancelled ∨ l = .resolved (some path)) :
    Port.step (permits,port) (.conn l) = none := by
  have hnone (hready : port.ready l = true) : port.conn.step permits l = none := by
    rcases h with h | ⟨hup,⟨h,-⟩ | ⟨hp,hcur⟩⟩
    · rcases h with h | h | h <;> rcases hl with rfl | rfl <;> simp only [Conn.step,h]
    · rcases hl with rfl | rfl <;> simp only [Conn.step,h]
    · rcases hl with rfl | rfl
      · simp only [Conn.step,hp]
      · simp [Port.ready,hcur] at hready
  simp only [Port.step]
  split
  · rename_i hready
    rw [hnone hready]
    rfl
  · rfl

theorem not_reaches_held (path : String) (hc : s.port? c = some port) (h : port.Held) (hS : S.conn c)
    {P : State → Prop} (hP : ∀ t, P t → ∃ l t', (l = .cancelled ∨ l = .resolved (some path)) ∧
      step t (.port c (.conn l)) = some t') : ¬ S.Reaches P s := by
  refine not_canReach (I := fun t => ∃ p, t.port? c = some p ∧ p.Held) (fun u l t hI hl hst => ?_)
    ⟨port,hc,h⟩ fun t hI hPt => ?_
  · exact step_keeps (fun _ _ => kept_held) (fun _ _ _ _ _ hp hm hst => step_held hp hS hm hst) hI hl hst
  · obtain ⟨p,hport,hheld⟩ := hI
    obtain ⟨l,t',hl,hst⟩ := hP t hPt
    obtain ⟨q,hq,hst⟩ := Option.bind_eq_some_iff.mp hst
    cases hport.symm.trans hq
    rw [hheld.disabled hl] at hst
    cases hst

theorem dispatches_iff (ho : port.Ordered) (hc : s.port? c = some port) (hup : port.conn.up = true)
    (hr : port.Unresolved r) (hok : port.link.streams[r]? = some (.complete (some path))) :
    S.Reaches (State.Dispatches c r path) s ↔
      (port.conn.phase = .building → port.link.granted = false → ¬ S.conn c) ∧
      ∀ q < r, port.Unresolved q → port.link.streams[q]? = some .incomplete → ¬ (S.conn c ∨ S.stream c q) := by
  refine ⟨fun hreach => ⟨fun hp hg hS => ?_,fun q hqr hq hinc hS => ?_⟩,
    fun ⟨hg,hS⟩ => dispatches_of_clear ho hc hup hr hok hg hS⟩
  · refine not_reaches_held path hc (.inr ⟨hup,.inl ⟨hp,hg⟩⟩) hS ?_ hreach
    rintro t ⟨-,-,-,t',ht'⟩
    exact ⟨_,t',.inr rfl,ht'⟩
  · have hblocked : port.Blocked q := by
      refine ⟨hinc,?_,.inl hup⟩
      rcases hq with ⟨-,ha⟩ | ⟨hp,ha⟩
      · exact .inl ha
      · by_cases hlast : port.link.accepted = q + 1
        · exact .inr ⟨hlast,.inl hp⟩
        · exact .inl (by omega)
    refine not_canReach (I := fun t => ∃ p, t.port? c = some p ∧ p.Blocked q) (fun u l t hI hl hst => ?_)
      ⟨port,hc,hblocked⟩ ?_ hreach
    · exact step_keeps (fun _ _ => kept_blocked) (fun _ _ _ _ _ hp hm hst => step_blocked hp hS hm hst)
        hI hl hst
    · rintro t ⟨p,hport,hp⟩ ⟨p',hport',ha,-⟩
      cases hport.symm.trans hport'
      rcases hp.place with hplace | ⟨hplace,-⟩ <;> omega

theorem shutsDown_iff (ho : port.Ordered) (hc : s.port? c = some port) (hl : port.Looping)
    (hcancel : port.conn.cancel = true) :
    (Stalled.peer c).Reaches (State.ShutsDown c) s ↔
      (port.conn.phase = .building → port.link.granted = true) ∧
      (port.conn.phase = .resolving → port.conn.up = true → port.link.current ≠ some .incomplete) := by
  constructor
  · intro hreach
    have hheld (h : port.Held) : False := by
      refine not_reaches_held "" hc h rfl ?_ hreach
      rintro t ⟨t',ht'⟩
      exact ⟨_,t',.inl rfl,ht'⟩
    refine ⟨fun hp => ?_,fun hp hup hcur => hheld (.inr ⟨hup,.inr ⟨hp,hcur⟩⟩)⟩
    cases hg : port.link.granted with
    | true => rfl
    | false =>
      rcases hl with hl | hl | ⟨-,hup⟩
      · cases hp.symm.trans hl
      · cases hp.symm.trans hl
      · exact (hheld (.inr ⟨hup,.inl ⟨hp,hg⟩⟩)).elim
  · rintro ⟨hg,hr⟩
    refine shutsDown_of_clear hc hl hcancel hg fun hp => ?_
    have hpos := ho.awaited hp
    have hlen := ho.opened
    cases hup : port.conn.up with
    | false =>
      refine ⟨none,?_⟩
      simp [Port.ready,hup]
    | true =>
      cases hcur : port.link.current with
      | none => exact absurd (List.getElem?_eq_none_iff.mp hcur) (by omega)
      | some progress =>
        cases progress with
        | incomplete => exact (hr hp hup hcur).elim
        | complete head => exact ⟨head,ready_of_current hcur⟩

/-- In every reachable state and for all silent parties, complete attempts and
requests and the shutdown can do without them exactly when none of them has
something outstanding in front. Every connection is covered. -/
theorem unblocked_iff (server : QuicServer) {ls : List Label} (h : exec step (.init server) ls = some s)
    (S : Stalled) :
    (Unblocked S s ↔ Clear S s) ∧ ∀ c conn, s.server.conns[c]? = some conn →
      ∃ link, s.port? c = some ⟨conn,link⟩ := by
  have hinv := exec_peersInv h
  refine ⟨⟨fun hu => ⟨?_,?_,?_⟩,fun hclear => ⟨?_,?_,?_⟩⟩,fun c conn hconn => ?_⟩
  · exact fun i hi hok => (accepts_iff hinv hi hok).mp (hu.accepts i hi hok)
  · exact fun c port r path hc hup hr hok =>
      (dispatches_iff (hinv.ports c port hc) hc hup hr hok).mp (hu.dispatches c port r path hc hup hr hok)
  · exact fun c port hc hl hcancel =>
      (shutsDown_iff (hinv.ports c port hc) hc hl hcancel).mp (hu.shutsDown c port hc hl hcancel)
  · exact fun i hi hok => (accepts_iff hinv hi hok).mpr (hclear.attempts i hi hok)
  · exact fun c port r path hc hup hr hok =>
      (dispatches_iff (hinv.ports c port hc) hc hup hr hok).mpr (hclear.streams c port r path hc hup hr hok)
  · exact fun c port hc hl hcancel =>
      (shutsDown_iff (hinv.ports c port hc) hc hl hcancel).mpr (hclear.shutdown c port hc hl hcancel)
  · have hlt : c < s.links.length := by
      rw [hinv.paired]
      exact (List.getElem?_eq_some_iff.mp hconn).1
    exact ⟨s.links[c],port?_eq_some.mpr ⟨hconn,List.getElem?_eq_getElem hlt⟩⟩

/-- A client opens two streams and sends the head of the second one only; after it
two attempts arrive, and only the second one completes its handshake. -/
def quietRun : List Label :=
  [.attempt,.complete 0 true,.server .incoming,.server (.handshake true),.port 0 .grant,
    .port 0 (.conn (.built true)),.port 0 .openStream,.port 0 .openStream,.port 0 (.head 1 (some "/hello")),
    .port 0 (.conn .accepted),.attempt,.attempt,.complete 2 true,.server .incoming]

def quiet : Stalled := ⟨fun i => i = 1,fun _ => False,fun c r => c = 0 ∧ r = 0⟩

def nobody : Stalled := ⟨fun _ => False,fun _ => False,fun _ _ => False⟩

theorem quietRun_state : ∃ s port, exec step (.init ⟨256⟩) quietRun = some s ∧
    s.server.phase = .connecting ∧ s.taken = 2 ∧
      s.attempts = [.complete true,.incomplete,.complete true] ∧ s.port? 0 = some port ∧
      port.conn.phase = .resolving ∧ port.conn.up = true ∧ port.conn.cancel = false ∧
      port.link = ⟨true,false,[.incomplete,.complete (some "/hello")],1⟩ ∧ s.server.conns.length = 1 :=
  ⟨_,_,rfl,rfl,rfl,rfl,rfl,rfl,rfl,rfl,rfl,rfl⟩

/-- All three are held up: the third attempt, the second stream, and after a signal
the shutdown of the connection. -/
theorem quietRun_blocks : ∃ s t, exec step (.init ⟨256⟩) quietRun = some s ∧
    step s (.server .signal) = some t ∧ ¬ quiet.Reaches (State.Accepts 2) s ∧
      ¬ quiet.Reaches (State.Dispatches 0 1 "/hello") s ∧
        ¬ (Stalled.peer 0).Reaches (State.ShutsDown 0) t := by
  obtain ⟨s,port,hs,hphase,htaken,hatt,hc,hp,hup,-,hlink,-⟩ := quietRun_state
  have hinv := exec_peersInv hs
  obtain ⟨hconn,hl⟩ := port?_eq_some.mp hc
  let t : State := { s with server := s.server.signal }
  have hst : step s (.server .signal) = some t := by
    simp only [step,State.ready,if_true,Server.step,hphase]
    rfl
  have hport : t.port? 0 = some ⟨{ port.conn with cancel := true },port.link⟩ := by
    refine port?_eq_some.mpr ⟨?_,hl⟩
    exact (List.getElem?_map ..).trans (by rw [hconn]; rfl)
  refine ⟨s,t,hs,hst,fun hreach => ?_,fun hreach => ?_,fun hreach => ?_⟩
  · refine (accepts_iff hinv (.inr ⟨hphase,by omega⟩) (by rw [hatt]; rfl)).mp hreach 1 (by omega)
      (.inr ⟨hphase,by omega⟩) (by rw [hatt]; rfl) rfl
  · refine ((dispatches_iff (hinv.ports 0 port hc) hc hup (.inr ⟨hp,?_⟩) ?_).mp hreach).2 0 (by omega)
      (.inr ⟨hp,?_⟩) ?_ (.inr ⟨rfl,rfl⟩) <;> rw [hlink]
    · exact Nat.le_succ 1
    · rfl
    · rfl
  · have hord := (step_peersInv hinv hst).ports 0 _ hport
    refine ((shutsDown_iff hord hport (.inr (.inl hp)) rfl).mp hreach).2 hp hup ?_
    unfold Link.current
    rw [hlink]
    rfl

theorem silent_peers_block : ¬ ∀ (server : QuicServer) (ls : List Label) (s : State) (S : Stalled),
    exec step (.init server) ls = some s → Unblocked S s := by
  intro h
  obtain ⟨s,-,hs,-,hblocked,-⟩ := quietRun_blocks
  obtain ⟨s',port,hs',hphase,htaken,hatt,-⟩ := quietRun_state
  cases hs.symm.trans hs'
  exact hblocked ((h ⟨256⟩ quietRun s quiet hs).accepts 2 (.inr ⟨hphase,by omega⟩) (by rw [hatt]; rfl))

theorem unblocked_iff_quietRun : ∃ s, exec step (.init ⟨256⟩) quietRun = some s ∧
    ¬ Unblocked quiet s ∧ Unblocked nobody s := by
  obtain ⟨s,port,hs,hphase,htaken,hatt,hc,hp,-,hcancel,-,hlen⟩ := quietRun_state
  refine ⟨s,hs,fun hu => ?_,(unblocked_iff ⟨256⟩ hs nobody).1.mpr ⟨?_,?_,?_⟩⟩
  · have hclear := (unblocked_iff ⟨256⟩ hs quiet).1.mp hu
    exact hclear.attempts 2 (.inr ⟨hphase,by omega⟩) (by rw [hatt]; rfl) 1 (by omega)
      (.inr ⟨hphase,by omega⟩) (by rw [hatt]; rfl) rfl
  · exact fun _ _ _ _ _ _ _ hS => hS
  · exact fun _ _ _ _ _ _ _ _ => ⟨fun _ _ hS => hS,fun _ _ _ _ hS => hS.elim id id⟩
  · intro c port' hc' _ hcan
    have hzero : c = 0 := by
      have hlt := (List.getElem?_eq_some_iff.mp (port?_eq_some.mp hc').1).1
      omega
    subst hzero
    cases hc.symm.trans hc'
    cases hcancel.symm.trans hcan

end GrpcQuic.Peers
