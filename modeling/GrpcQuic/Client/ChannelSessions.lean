import GrpcQuic.Client.Call
import GrpcQuic.Client.PoolSenders

/-! # Concurrent calls on one channel

All calls of a channel share its pool, and each attempt is a `get_or_connect`
call of its own, named by the call and the attempt. A session that refuses
requests keeps refusing them, and its connection may stay open all the while.
-/
namespace GrpcQuic.Channel
open Transition Pool

/-- What the calls of one channel have in common. `build` is
`http::Request::builder`, whose verdict depends on the head alone. -/
structure QuicChannel (Addr : Type*) where
  remote : Addr
  config : ℕ → Call.Config
  build : RequestHead → Except String Unit

/-- `failedOn` records the entries on which a call's `send_request` has failed. -/
structure State (Addr : Type*) where
  pool : Pool.State Addr (ℕ × ℕ)
  call : ℕ → Call.State
  dropped : ℕ → Bool
  refusing : ℕ → Bool
  failedOn : ℕ → List PoolEntry

def State.init {Addr : Type*} : State Addr where
  pool := Pool.State.init
  call _ := Call.State.init
  dropped _ := false
  refusing _ := false
  failedOn _ := []

inductive Background where
  | connected (k : ℕ)
  | connectFailed (k : ℕ) (e : ClientError)
  | h3Ready (k : ℕ)
  | h3Failed (k : ℕ) (e : CoreError)
  | complete (k : ℕ)
  | answer
  | finish
  | close (k : ℕ)

def Background.label {Addr ι : Type*} : Background → Pool.Label Addr ι
  | connected k => .connected k
  | connectFailed k e => .connectFailed k e
  | h3Ready k => .h3Ready k
  | h3Failed k e => .h3Failed k e
  | complete k => .complete k
  | answer => .answer
  | finish => .finish
  | close k => .close k

inductive Label where
  | background (b : Background)
  | refuse (k : ℕ)
  | acquired (c : ℕ) (permit : Bool)
  | woke (c : ℕ)
  | enter (c : ℕ)
  | lookup (c : ℕ)
  | receive (c : ℕ)
  | sent (c : ℕ) (res : Except CoreError Unit)
  | invalidate (c : ℕ)
  | responded (c : ℕ) (res : Except String ResponseHead)
  | drop (c : ℕ)

variable {Addr : Type*} [DecidableEq Addr]

def State.caller (s : State Addr) (c : ℕ) : ℕ × ℕ := (c,(s.call c).attempt)

def State.setCall (s : State Addr) (c : ℕ) (cs : Call.State) : State Addr :=
  { s with call := Function.update s.call c cs }

/-- From the return of `get_or_connect` the call runs on to `send_request`
without another await. -/
def QuicChannel.resumeEvents (ch : QuicChannel Addr) (c : ℕ) : PoolResult → List Call.Event
  | .ok entry => [.pooled (.ok entry),.built (ch.build (ch.config c).h3Request)]
  | .error e => [.pooled (.error e)]

def QuicChannel.resume (ch : QuicChannel Addr) (s : State Addr) (c : ℕ)
    (pool : Pool.State Addr (ℕ × ℕ)) : Option (State Addr) :=
  match pool.phase (s.caller c) with
  | .returned reply =>
    (exec (Call.step (ch.config c)) (s.call c) (ch.resumeEvents c reply.result)).map fun cs =>
      { s.setCall c cs with pool }
  | _ => some { s with pool }

def State.opens (s : State Addr) (entry : PoolEntry) : Bool :=
  !s.refusing entry.h3.sendReq && !s.pool.isClosed entry.quic

def QuicChannel.sent (ch : QuicChannel Addr) (s : State Addr) (c : ℕ) (res : Except CoreError Unit) :
    Option (State Addr) :=
  match (s.call c).phase with
  | .sending entry =>
    match res with
    | .ok () =>
      if s.opens entry then (Call.step (ch.config c) (s.call c) (.sent res)).map (s.setCall c) else none
    | .error _ =>
      (Call.step (ch.config c) (s.call c) (.sent res)).map fun cs =>
        { s.setCall c cs with failedOn := Function.update s.failedOn c (entry :: s.failedOn c) }
  | _ => none

def QuicChannel.stepCall (ch : QuicChannel Addr) (s : State Addr) (c : ℕ) : Label → Option (State Addr)
  | .acquired _ permit =>
    (Call.step (ch.config c) (s.call c) (.acquired permit)).map (s.setCall c)
  | .woke _ => (Call.step (ch.config c) (s.call c) .woke).map (s.setCall c)
  | .enter _ =>
    match (s.call c).phase with
    | .pooling => (Pool.step s.pool (.enter (s.caller c) ch.remote)).map fun pool => { s with pool }
    | _ => none
  | .lookup _ => (Pool.step s.pool (.lookup (s.caller c))).bind (ch.resume s c)
  | .receive _ => (Pool.step s.pool (.receive (s.caller c))).bind (ch.resume s c)
  | .sent _ res => ch.sent s c res
  | .invalidate _ =>
    (Call.step (ch.config c) (s.call c) .invalidated).bind fun cs =>
      (Pool.step s.pool (.invalidate ch.remote)).map fun pool => { s.setCall c cs with pool }
  | .responded _ res =>
    (Call.step (ch.config c) (s.call c) (.responded res)).map (s.setCall c)
  | .drop _ =>
    some { s with
      pool := (Pool.step s.pool (.cancel (s.caller c))).getD s.pool
      dropped := Function.update s.dropped c true }
  | _ => none

def Label.call : Label → Option ℕ
  | background _ => none
  | refuse _ => none
  | acquired c _ => some c
  | woke c => some c
  | enter c => some c
  | lookup c => some c
  | receive c => some c
  | sent c _ => some c
  | invalidate c => some c
  | responded c _ => some c
  | drop c => some c

def QuicChannel.step (ch : QuicChannel Addr) (s : State Addr) (l : Label) : Option (State Addr) :=
  match l.call with
  | some c => if s.dropped c then none else ch.stepCall s c l
  | none =>
    match l with
    | .background b => (Pool.step s.pool b.label).map fun pool => { s with pool }
    | .refuse k => some { s with refusing := Function.update s.refusing k true }
    | _ => none

/-- No call dispatches on an entry on which it has already failed. -/
def NoReturn (s : State Addr) : Prop :=
  ∀ c e, (s.call c).phase = .sending e → e ∉ s.failedOn c

/-- Whenever a call looks an entry up again, all the connections under the
entries it failed on are closed. -/
def ClosedBeforeRetry (s : State Addr) (l : Label) : Prop :=
  ∀ c, l = .lookup c → ∀ e ∈ s.failedOn c, s.pool.isClosed e.quic = true

end GrpcQuic.Channel
