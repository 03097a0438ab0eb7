import GrpcQuic.Client.Call
import GrpcQuic.Exchange.Transfer

/-! # A call with its forwarder and its response body

The handle of the forwarder is first held by the call future, which aborts it
only where `recv_response` fails, and then by the `ClientRecvBody`, which aborts
it when it is dropped or its deadline has elapsed. The response stream is an
environment that delivers any chunks and any ending.
-/
namespace GrpcQuic.Rpc
open Transition

structure Request where
  call : Call.Config
  body : Body
  deadline : Option ℕ

inductive ResponseBody where
  | absent
  | present (body : ClientRecvBody RecvHalf)
  | dropped

/-- `half` is the receive half as long as the call future owns it, and `wakeAt` the end
of the sleep it may be in. The fields `arrived`, `arrivedEnd` and `yielded` record what
the response stream delivered and what the response body yielded. -/
structure State where
  call : Call.State
  dropped : Bool
  forwarder : Option (Sender Forwarder)
  half : Option RecvHalf
  body : ResponseBody
  now : ℕ
  wakeAt : ℕ
  arrived : List Bytes
  arrivedEnd : Option (Except String (Option HeaderMap))
  yielded : List FrameResult

def State.init : State where
  call := .init
  dropped := false
  forwarder := none
  half := none
  body := .absent
  now := 0
  wakeAt := 0
  arrived := []
  arrivedEnd := none
  yielded := []

inductive Label where
  | call (e : Call.Event)
  | timeout
  | dropCall
  | forward (l : SendLabel)
  | arrive (chunk : Bytes)
  | arriveEnd (ending : Except String (Option HeaderMap))
  | tick (n : ℕ)
  | poll
  | dropBody

/-- `AbortHandle::abort`; a task that is over stays as it is. -/
def State.abortForwarder (s : State) : State :=
  { s with forwarder := s.forwarder.map (Sender.abort forwarderLoop) }

def State.abortIf (s : State) (aborts : Bool) : State := if aborts then s.abortForwarder else s

def State.err (s : State) : Oneshot CoreError :=
  match s.forwarder with
  | some f => f.loop.errTx
  | none => .closed

def State.wakeAfter (req : Request) (s : State) (call : Call.State) : ℕ :=
  match call.phase with
  | .sleeping => s.now + req.call.retry.backoffFor (call.attempt - 1)
  | _ => s.wakeAt

def State.goOn (req : Request) (s : State) (call : Call.State) : State :=
  { s with call, wakeAt := s.wakeAfter req call }

/-- A sleep does not return before its time. -/
def State.asleep (s : State) : Call.Event → Bool
  | .woke => decide (s.now < s.wakeAt)
  | _ => false

def State.onEvent (req : Request) (s : State) : Call.Event → State
  | .sent (.ok ()) =>
    { s with
      forwarder := some (.forward req.body)
      half := some .new
      arrived := []
      arrivedEnd := none }
  | .responded (.ok _) =>
    match s.half with
    | some half => { s with half := none, body := .present (.new half true true req.deadline) }
    | none => s
  | .responded (.error _) => { s with half := none }.abortForwarder
  | _ => s

def State.pending (s : State) : Bool :=
  !s.dropped && match s.call.phase with
    | .done _ => false
    | _ => true

/-- Dropping the call future drops the receive half; the forwarder is detached. -/
def State.dropCall (s : State) : State := { s with dropped := true, half := none }

def State.mapHalf (s : State) (f : RecvHalf → RecvHalf) : Option State :=
  match s.half, s.body with
  | some half, _ => if half.ending.isNone then some { s with half := some (f half) } else none
  | none, .present body =>
    if body.stream.ending.isNone then some { s with body := .present { body with stream := f body.stream } }
    else none
  | none, _ => none

def step (req : Request) (s : State) : Label → Option State
  | .call e =>
    if s.dropped || s.asleep e then none
    else (Call.step req.call s.call e).map fun call => (s.goOn req call).onEvent req e
  | .timeout =>
    match req.deadline with
    | some deadline => if s.pending && decide (deadline ≤ s.now) then some s.dropCall else none
    | none => none
  | .dropCall => if s.pending then some s.dropCall else none
  | .forward l =>
    match s.forwarder, l with
    | some _, .abort => none
    | some f, l => (f.step forwarderLoop l).map fun f => { s with forwarder := some f }
    | none, _ => none
  | .arrive chunk =>
    (s.mapHalf fun half => { half with chunks := half.chunks ++ [chunk] }).map fun t =>
      { t with arrived := s.arrived ++ [chunk] }
  | .arriveEnd ending =>
    (s.mapHalf fun half => { half with ending := some ending }).map fun t =>
      { t with arrivedEnd := some ending }
  | .tick n => some { s with now := s.now + n }
  | .poll =>
    match s.body with
    | .present body =>
      let (result,next) := body.pollFrame s.now s.err
      some { s.abortIf (body.pollAborts s.now) with
        body := .present next
        yielded := s.yielded ++ result.toList }
    | _ => none
  | .dropBody =>
    match s.body with
    | .present body => some { s.abortIf body.dropAborts with body := .dropped }
    | _ => none

def State.running (s : State) : Bool :=
  match s.forwarder with
  | some f => decide (f.await ≠ .left)
  | none => false

def State.ended (s : State) : Bool := !s.pending

def State.bodyGone (s : State) : Bool :=
  match s.body with
  | .present body => body.isClosed
  | _ => true

def NoOrphan (s : State) : Prop := ¬ (s.ended = true ∧ s.bodyGone = true ∧ s.running = true)

/-- The call future is not dropped while it waits for the response head with its
forwarder running, neither by its caller nor by its deadline. -/
def NotDroppedAwaiting (s : State) (l : Label) : Prop :=
  l = .timeout ∨ l = .dropCall → s.call.phase = .awaitingResponse → s.running = false

end GrpcQuic.Rpc
