import GrpcQuic.Client.RpcGuarantees
import GrpcQuic.Server.HandleRequest
import GrpcQuic.Exchange.BodyDeadline
import GrpcQuic.Exchange.Verbatim

/-! # One call from end to end

The call of a client, the task that handles its request and the two halves of the
stream between them. Nothing that crosses the stream is left to an environment
any more: the client hears what the task has sent, and the service reads what the
forwarder has sent. Only the service itself may answer as it likes.
-/
namespace GrpcQuic.RoundTrip
open Transition Server

structure Setup where
  call : Call.Config
  frames : List Bytes
  ending : Ending
  deadline : Option ℕ

def Setup.request (x : Setup) : Rpc.Request := ⟨x.call,.new x.frames x.ending,x.deadline⟩

/-- The server's end of the stream: the request as it is handed to the service,
the task, and the body that was boxed into the request. `read` records what the
service has read of that body and `answer` what it has returned. -/
structure Handler where
  request : RequestHead
  task : RequestTask
  body : ServerRecvBody RecvHalf
  read : List FrameResult
  answer : Option (ResponseHead × Body)

/-- `handle_request` makes a new request around the boxed body and copies the
method, the URI and the headers into it. -/
def Handler.new (head : RequestHead) (path : String) : Handler where
  request := { method := head.method, uri := head.uri, headers := head.headers }
  task := .new path
  body := .new .new
  read := []
  answer := none

def refusal : List SendOp → Option ResponseHead
  | .head head :: _ => some head
  | _ => none

def idle : Sender ResponseLoop := .respond ⟨500,[]⟩ (.new [] .clean)

/-- The send half of the response. Before an answer nothing is on its wire, and a
task that ended without one has dropped it after the head of a refusal at most. -/
def responderOf (task : RequestTask) : Sender ResponseLoop :=
  match task.phase with
  | .responding sender => sender
  | .ended => ⟨⟨[],.clean,true⟩,.left,⟨false,0⟩,⟨refusal task.sent,.empty,some .fin⟩,[]⟩
  | _ => idle

def answerBody : Option (ResponseHead × Body) → Body
  | some (_,body) => body
  | none => .new [] .clean

def pullTask (task : RequestTask) (n : ℕ) : RequestTask :=
  match task.phase with
  | .responding sender =>
    let wire := { sender.wire with tape := sender.wire.tape.pull n }
    { task with phase := .responding { sender with wire } }
  | _ => task

/-- The service may answer with any body that has not been polled yet. -/
def Handler.serve (h : Handler) : RequestLabel → Option Handler
  | .called (some (head,body)) =>
    if body.ended then none
    else (h.task.step (.called (some (head,body)))).map fun task =>
      { h with task, answer := some (head,body) }
  | l => (h.task.step l).map fun task => { h with task }

def Handler.readFrame (h : Handler) : Handler :=
  match h.body.pollFrame with
  | (.ready result,body) => { h with body, read := h.read ++ [result] }
  | (.pending,body) => { h with body }

def Handler.poll (h : Handler) : Option Handler :=
  match h.task.phase with
  | .calling | .responding _ => some h.readFrame
  | _ => none

structure State where
  client : Rpc.State
  handler : Option Handler

def State.init : State := ⟨.init,none⟩

def ownStep : Rpc.Label → Bool
  | .call (.responded (.ok _)) => false
  | .arrive _ => false
  | .arriveEnd _ => false
  | _ => true

inductive Label where
  | client (l : Rpc.Label)
  | respond
  | accept
  | serve (l : RequestLabel)
  | read
  | requestBytes (n : ℕ)
  | requestEnd (message : String)
  | requestLost (message : String)
  | responseBytes (n : ℕ)
  | responseEnd (message : String)
  | responseLost (message : String)

def State.responder (s : State) : Sender ResponseLoop :=
  match s.handler with
  | some h => responderOf h.task
  | none => idle

def State.answer (s : State) : Option (ResponseHead × Body) := s.handler.bind Handler.answer

def State.receive (s : State) (f : Wire → RecvHalf → Option (Wire × RecvHalf)) : Option State :=
  match s.client.forwarder, s.handler with
  | some forwarder, some h =>
    (f forwarder.wire h.body.stream).map fun (wire,half) =>
      ⟨{ s.client with forwarder := some { forwarder with wire } },
        some { h with body := { h.body with stream := half } }⟩
  | _, _ => none

def step (x : Setup) (s : State) : Label → Option State
  | .client l =>
    if ownStep l then (Rpc.step x.request s.client l).map fun client => { s with client } else none
  | .respond =>
    s.responder.wire.head.bind fun head =>
      (Rpc.step x.request s.client (.call (.responded (.ok head)))).map fun client => { s with client }
  | .accept =>
    match s.client.forwarder, s.handler with
    | some _, none => some { s with handler := some (.new x.call.h3Request x.call.parts.path) }
    | _, _ => none
  | .serve l => s.handler.bind fun h => (h.serve l).map fun h => { s with handler := some h }
  | .read => s.handler.bind fun h => h.poll.map fun h => { s with handler := some h }
  | .requestBytes n => s.receive fun wire half => wire.deliver half n
  | .requestEnd message =>
    s.receive fun wire half => (wire.deliverEnd half message).map fun half => (wire,half)
  | .requestLost message => s.receive fun wire half => (half.lose message).map fun half => (wire,half)
  | .responseBytes n =>
    (s.responder.wire.piece n).bind fun chunk =>
      (Rpc.step x.request s.client (.arrive chunk)).map fun client =>
        ⟨client,s.handler.map fun h => { h with task := pullTask h.task (frameCells chunk).length }⟩
  | .responseEnd message =>
    match s.responder.wire.closing with
    | some c =>
      if s.responder.wire.tape.Exhausted then
        (Rpc.step x.request s.client (.arriveEnd (c.arrival message))).map fun client => { s with client }
      else none
    | none => none
  | .responseLost message =>
    (Rpc.step x.request s.client (.arriveEnd (.error message))).map fun client => { s with client }

end GrpcQuic.RoundTrip
