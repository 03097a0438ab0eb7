import GrpcQuic.Core.RecvBody
import GrpcQuic.Transition.Tape

/-! # The sending loops

The request forwarder and the response loop both poll a body and push its frames
into the send half of an h3 stream. They share the pump below and differ in what
they do when something fails or the body ends, which a `SendLoop` lists.
-/
namespace GrpcQuic
open Transition

/-- What closes a stream half on the wire. Inside a frame it is `broken`. -/
inductive Closing where
  | fin
  | trailers (trailers : HeaderMap)
  | broken
  deriving DecidableEq, Repr

theorem Closing.fin_ne_broken : fin ≠ broken := by
  rintro ⟨⟩

/-- Everything a send half has put on the wire. A DATA frame without data is one
`none` on the tape. -/
structure Wire where
  head : Option ResponseHead
  tape : Tape (Option UInt8)
  closing : Option Closing

def emptyMark : Bytes → List (Option UInt8)
  | [] => [none]
  | _ :: _ => []

def frameCells (data : Bytes) : List (Option UInt8) := data.map some ++ emptyMark data

def Wire.new : Wire := ⟨none,.empty,none⟩

inductive SendOp where
  | head (head : ResponseHead)
  | data (data : Bytes)
  | trailers (trailers : HeaderMap)
  | finish
  deriving DecidableEq, Repr

inductive Stage where
  | queued
  | underway (rest : Bytes)
  | flushed
  deriving DecidableEq, Repr

inductive Await where
  | body
  | send (op : SendOp) (stage : Stage)
  | left
  deriving DecidableEq, Repr

inductive Exit where
  | finish
  | leave

structure SendLoop (σ : Type*) where
  onData : σ → σ
  dataSent : σ → Bytes → σ
  dataFailed : σ → String → Exit × σ
  trailersFailed : σ → String → σ
  bodyFailed : σ → String → Exit × σ
  bodyEnded : σ → Exit × σ
  finishFailed : σ → String → σ
  left : σ → σ

/-- A task that runs a loop. `produced` records the data frames its body has yielded. -/
structure Sender (σ : Type*) where
  body : Body
  await : Await
  loop : σ
  wire : Wire
  produced : List Bytes

inductive SendLabel where
  | poll
  | begin
  | write (n : ℕ)
  | flush
  | sent
  | failed (message : String)
  | abort

def Await.midFrame : Await → Bool
  | send _ (.underway _) => true
  | _ => false

def Await.unsent : Await → List (Option UInt8)
  | send (.data bytes) .queued => frameCells bytes
  | send (.data bytes) (.underway rest) => rest.map some ++ emptyMark bytes
  | _ => []

def SendOp.payload : SendOp → Bytes
  | .data bytes => bytes
  | _ => []

def SendOp.mark : SendOp → List (Option UInt8)
  | .data bytes => emptyMark bytes
  | _ => []

/-- Dropping a send half that was neither finished nor reset finishes it. -/
def Wire.dropSend (wire : Wire) (midFrame : Bool) : Wire :=
  { wire with closing := some (wire.closing.getD (if midFrame then .broken else .fin)) }

def Wire.break (wire : Wire) : Wire := { wire with closing := some (wire.closing.getD .broken) }

def Wire.flush (wire : Wire) : SendOp → Wire
  | .head head => { wire with head := some head }
  | .data data => { wire with tape := wire.tape.append (emptyMark data) }
  | .trailers trailers => { wire with closing := some (.trailers trailers) }
  | .finish => { wire with closing := some .fin }

variable {σ : Type*}

def Sender.leave (L : SendLoop σ) (s : Sender σ) : Sender σ :=
  { s with await := .left, loop := L.left s.loop, wire := s.wire.dropSend s.await.midFrame }

def Sender.exit (L : SendLoop σ) (s : Sender σ) : Exit × σ → Sender σ
  | (.finish,loop) => { s with await := .send .finish .queued, loop }
  | (.leave,loop) => { s with loop }.leave L

def Sender.onFrame (L : SendLoop σ) (s : Sender σ) : Option (Except String Frame) → Sender σ
  | some (.ok (.data data)) =>
    { s with
      await := .send (.data data) .queued
      loop := L.onData s.loop
      produced := s.produced ++ [data] }
  | some (.ok (.trailers trailers)) => { s with await := .send (.trailers trailers) .queued }
  | some (.error e) => s.exit L (L.bodyFailed s.loop e)
  | none => s.exit L (L.bodyEnded s.loop)

def Sender.onSent (L : SendLoop σ) (s : Sender σ) : SendOp → Sender σ
  | .head _ => { s with await := .body }
  | .data data => { s with await := .body, loop := L.dataSent s.loop data }
  | .trailers _ => s.leave L
  | .finish => s.leave L

def Sender.onFailed (L : SendLoop σ) (s : Sender σ) (message : String) : SendOp → Sender σ
  | .head _ => s.leave L
  | .data _ => s.exit L (L.dataFailed s.loop message)
  | .trailers _ => { s with loop := L.trailersFailed s.loop message }.leave L
  | .finish => { s with loop := L.finishFailed s.loop message }.leave L

def Sender.abort (L : SendLoop σ) (s : Sender σ) : Sender σ :=
  match s.await with
  | .left => s
  | _ => s.leave L

def Sender.step (L : SendLoop σ) (s : Sender σ) : SendLabel → Option (Sender σ)
  | .poll =>
    match s.await with
    | .body => some ({ s with body := s.body.next.2 }.onFrame L s.body.next.1)
    | _ => none
  | .begin =>
    match s.await with
    | .send .finish _ => none
    | .send op .queued => some { s with await := .send op (.underway op.payload) }
    | _ => none
  | .write n =>
    match s.await with
    | .send (.data data) (.underway rest) =>
      some { s with
        await := .send (.data data) (.underway (rest.drop n))
        wire := { s.wire with tape := s.wire.tape.append ((rest.take n).map some) } }
    | _ => none
  | .flush =>
    match s.await, s.wire.closing with
    | .send .finish .queued, none =>
      some { s with await := .send .finish .flushed, wire := s.wire.flush .finish }
    | .send op (.underway []), none => some { s with await := .send op .flushed, wire := s.wire.flush op }
    | _, _ => none
  | .sent =>
    match s.await with
    | .send op .flushed => some (s.onSent L op)
    | _ => none
  | .failed message =>
    match s.await with
    | .send _ .flushed => none
    | .send op _ => some ({ s with wire := s.wire.break }.onFailed L message op)
    | _ => none
  | .abort => some (s.abort L)

/-- What the forwarder spawned by `QuicChannel::call` keeps: the sender of the
error channel and the bytes it has counted. -/
structure Forwarder where
  errTx : Oneshot CoreError
  bytesSent : ℕ

def Forwarder.fail (f : Forwarder) (message : String) : Forwarder :=
  { f with errTx := f.errTx.send (.h3Stream message) }

def forwarderLoop : SendLoop Forwarder where
  onData f := f
  dataSent f data := { f with bytesSent := f.bytesSent + data.length }
  dataFailed f e := (.leave,f.fail e)
  trailersFailed f e := f.fail e
  bodyFailed f e := (.leave,f.fail e)
  bodyEnded f := (.finish,f)
  finishFailed f e := f.fail e
  left f := { f with errTx := f.errTx.dropSender }

structure ResponseLoop where
  dataFrameReceived : Bool
  bytesSent : ℕ

def responseLoop : SendLoop ResponseLoop where
  onData r := { r with dataFrameReceived := true }
  dataSent r data := { r with bytesSent := r.bytesSent + data.length }
  dataFailed r _ := (.finish,r)
  trailersFailed r _ := r
  bodyFailed r _ := (.finish,r)
  bodyEnded r := (if r.dataFrameReceived then .finish else .leave,r)
  finishFailed r _ := r
  left r := r

def Sender.forward (body : Body) : Sender Forwarder := ⟨body,.body,⟨.empty,0⟩,.new,[]⟩

def Sender.respond (head : ResponseHead) (body : Body) : Sender ResponseLoop :=
  ⟨body,.send (.head head) .queued,⟨false,0⟩,.new,[]⟩

end GrpcQuic
