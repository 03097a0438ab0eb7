import GrpcQuic.Client.ChannelGuarantees
import Mathlib.Algebra.BigOperators.Intervals
import Mathlib.Data.List.MinMax

/-! # No call of a channel is stuck

Whatever the network answers, a call that holds a permit can be brought to its end
by its own steps and those of the connect tasks, once its sleeps are over. So a permit
can always be had, and every call that is still wanted can end, unless the channel has
no permits at all.
-/
namespace GrpcQuic.ConcurrencyLimit
open Transition
variable {s t : State} {call : ChannelCall} {c : ℕ}

def ChannelCall.timeless (call : ChannelCall) : ChannelCall := { call with rpc := { call.rpc with now := 0 } }

/-- The future of a call determines its ledger. -/
theorem ChannelCall.Ledger.timeless {call call' : ChannelCall} (h : call.Ledger) (h' : call'.Ledger)
    (hreq : call'.req = call.req) {n : ℕ} (hrpc : call'.rpc = { call.rpc with now := n }) :
    call'.timeless = call.timeless := by
  have hq : call'.queued = call.queued := by
    unfold ChannelCall.queued
    rw [hrpc]
  have hp : call'.permit = call.permit := by
    rw [h'.held,h.held,hq,hrpc]
    rfl
  have ha : call'.acquired = call.acquired := by rw [h'.taken,h.taken,hq]
  have hr : call'.released = call.released := by
    have hb := h.balance
    have hb' := h'.balance
    rw [ha,hp] at hb'
    omega
  unfold ChannelCall.timeless
  rw [hreq,hrpc,hp,ha,hr]

end GrpcQuic.ConcurrencyLimit

namespace GrpcQuic.Client
open Transition ConcurrencyLimit
variable {Addr : Type*} [DecidableEq Addr] {p : Platform} {ch : QuicChannel Addr} {s t : State Addr} {c b : ℕ}
  {call : ChannelCall}

structure Network where
  dial : ℕ → Dial
  h3 : ℕ → Except CoreError Unit
  sent : ℕ × ℕ → Except CoreError Unit
  head : ℕ → Except String ResponseHead

/-- The steps of the calls and of the connect tasks, as the network answers them, and
the passing of time: no deadline, no drop, no new call and no closed connection. -/
def Follows (net : Network) (s : State Addr) : Label → Prop
  | .own c m => m = .call .woke ∨ m = .call (.sent (net.sent (s.caller c))) ∨ m = .call (.responded (net.head c))
  | .dial k d => d = net.dial k
  | .h3 k res => res = net.h3 k
  | .acquire _ => True
  | .enter _ => True
  | .lookup _ => True
  | .receive _ => True
  | .invalidate _ => True
  | .complete _ => True
  | .answer => True
  | .finish => True
  | .tick _ => True
  | _ => False

def Network.pool (net : Network) (ch : QuicChannel Addr) : Pool.Network :=
  ⟨fun k => ch.connectFn (net.dial k),net.h3⟩

/-- The pauses before the attempts from `n` on. -/
def QuicChannel.pauses (ch : QuicChannel Addr) (n : ℕ) : ℕ :=
  ∑ k ∈ Finset.Ico n ch.retry.maxAttempts, ch.retry.backoffFor (k - 1)

/-- When a call has slept out all its pauses at the latest, if nothing else takes time. -/
def QuicChannel.overBy (ch : QuicChannel Addr) (r : Rpc.State) : ℕ :=
  match r.call.phase with
  | .acquiring => r.now + ch.pauses 1
  | .sleeping => max r.now r.wakeAt + ch.pauses (r.call.attempt + 1)
  | .done _ => r.now
  | _ => r.now + ch.pauses (r.call.attempt + 1)

def State.timeless (s : State Addr) : List ChannelCall := s.limit.calls.map ChannelCall.timeless

/-- One call has moved on, alive and to be over by the instant `b`, to a state with `Q`,
and the others stay. -/
def Moved (p : Platform) (ch : QuicChannel Addr) (c b : ℕ) (s : State Addr) (Q : Call.State → Prop) (t : State Addr) :
    Prop :=
  ChannelInv p ch t ∧ ∃ call, t.call c = some call ∧ t.timeless = s.timeless.set c call.timeless ∧
    call.rpc.dropped = false ∧ ch.overBy call.rpc ≤ b ∧ Q call.rpc.call

omit [DecidableEq Addr] in
theorem Moved.trans {Q R : Call.State → Prop} {u : State Addr} (h : Moved p ch c b s Q t)
    (h' : Moved p ch c b t R u) : Moved p ch c b s R u := by
  obtain ⟨-,call,-,hset,-⟩ := h
  obtain ⟨hinv,call',hc',hset',hd,hb,hR⟩ := h'
  refine ⟨hinv,call',hc',?_,hd,hb,hR⟩
  rw [hset',hset,List.set_set]

def Moves (p : Platform) (ch : QuicChannel Addr) (net : Network) (c b : ℕ) (Q : Call.State → Prop) (s : State Addr) :
    Prop :=
  CanMeet (ch.step p) (Follows net) (Moved p ch c b s Q) s

variable {net : Network}

def Over (cs : Call.State) : Prop := ∃ res, cs.phase = .done res

def Settled (n : ℕ) (cs : Call.State) : Prop := Over cs ∨ cs.phase = .invalidating ∧ cs.attempt = n

omit [DecidableEq Addr] in
theorem Moved.released (h : ChannelInv p ch s) {d : ℕ} {holder : ChannelCall} (hd : s.call d = some holder)
    (hp : holder.permit = true) (hm : Moved p ch d b s Over t) : 0 < t.limit.permits := by
  obtain ⟨ht,call,hc,hset,-,-,hover⟩ := hm
  obtain ⟨res,hres⟩ := hover
  have hmem : call ∈ t.limit.calls := List.mem_of_getElem? hc
  have hover : call.rpc.pending = false := Bool.eq_false_iff.mpr fun hpend =>
    ((Rpc.pending_iff _).mp hpend).2 res hres
  have hfree : call.permit = false := by
    rw [(ht.limit.ledger call hmem).held,hover]
    rfl
  have htimeless : s.timeless[d]? = some holder.timeless := by
    unfold State.timeless
    rw [List.getElem?_map,show s.limit.calls[d]? = some holder from hd,Option.map_some]
  have hcount := countP_set_add ChannelCall.permit htimeless call.timeless
  rw [show holder.timeless.permit = true from hp,show call.timeless.permit = false from hfree,← hset] at hcount
  unfold State.timeless at hcount
  rw [List.countP_map,List.countP_map] at hcount
  change t.limit.calls.countP ChannelCall.permit + _ = s.limit.calls.countP ChannelCall.permit + _ at hcount
  have hbefore := h.limit.total
  have hafter := ht.limit.total
  simp only [if_true,Bool.false_eq_true,if_false] at hcount
  omega

end GrpcQuic.Client
