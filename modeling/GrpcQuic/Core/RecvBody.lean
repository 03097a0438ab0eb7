import GrpcQuic.Core.Errors
import GrpcQuic.Core.Http

/-! # The receiving bodies

`ServerRecvBody::poll_frame` and `ClientRecvBody::poll_frame` over whatever h3
answers. The client's body puts its deadline and the forwarder's error channel in
front of the same reading of the stream.
-/
namespace GrpcQuic

/-- A `tokio::sync::oneshot` channel as its receiver can find it. -/
inductive Oneshot (α : Type*) where
  | empty
  | sent (value : α)
  | closed
  deriving DecidableEq, Repr

/-- Sending consumes the sender, so only the first value gets in. -/
def Oneshot.send {α : Type*} (value : α) : Oneshot α → Oneshot α
  | empty => sent value
  | channel => channel

def Oneshot.dropSender {α : Type*} : Oneshot α → Oneshot α
  | empty => closed
  | channel => channel

/-- The receive half of an h3 request stream. -/
class RecvStream (S : Type*) where
  pollRecvData : S → Poll (Except String (Option Bytes)) × S
  pollRecvTrailers : S → Poll (Except String (Option HeaderMap)) × S

abbrev FrameResult := Option (Except CoreError Frame)

structure ServerRecvBody (S : Type*) where
  stream : S
  dataDone : Bool
  trailersDone : Bool

def ServerRecvBody.new {S : Type*} (stream : S) : ServerRecvBody S := ⟨stream,false,false⟩

section
variable {S : Type*} [RecvStream S]

def ServerRecvBody.pollTrailers (body : ServerRecvBody S) : Poll FrameResult × ServerRecvBody S :=
  if body.trailersDone then (.ready none,body)
  else
    match RecvStream.pollRecvTrailers body.stream with
    | (.ready (.ok (some trailers)),stream) =>
      (.ready (some (.ok (.trailers trailers))),{ body with stream, trailersDone := true })
    | (.ready (.ok none),stream) => (.ready none,{ body with stream, trailersDone := true })
    | (.ready (.error e),stream) =>
      (.ready (some (.error (.h3Stream e))),{ body with stream, trailersDone := true })
    | (.pending,stream) => (.pending,{ body with stream })

def ServerRecvBody.pollFrame (body : ServerRecvBody S) : Poll FrameResult × ServerRecvBody S :=
  if body.dataDone then body.pollTrailers
  else
    match RecvStream.pollRecvData body.stream with
    | (.ready (.ok (some data)),stream) => (.ready (some (.ok (.data data))),{ body with stream })
    | (.ready (.ok none),stream) => { body with stream, dataDone := true }.pollTrailers
    | (.ready (.error e),stream) => (.ready (some (.error (.h3Stream e))),{ body with stream })
    | (.pending,stream) => (.pending,{ body with stream })

/-- The client's body reads the stream as the server's does; `errRx` and
`abortHandle` tell whether the receiver and the handle are still there. -/
structure ClientRecvBody (S : Type*) extends ServerRecvBody S where
  isClosed : Bool
  errRx : Bool
  abortHandle : Bool
  deadline : Option ℕ

def ClientRecvBody.new {S : Type*} (stream : S) (errRx abortHandle : Bool) (deadline : Option ℕ) :
    ClientRecvBody S where
  toServerRecvBody := .new stream
  isClosed := false
  errRx := errRx
  abortHandle := abortHandle
  deadline := deadline

def deadlineTrailers : HeaderMap :=
  HeaderMap.insert (HeaderMap.insert [] "grpc-status" "4") "grpc-message" "deadline exceeded"

def ClientRecvBody.elapsed (body : ClientRecvBody S) (now : ℕ) : Bool :=
  match body.deadline with
  | some deadline => decide (deadline ≤ now)
  | none => false

/-- The last part of `poll_frame`, past the deadline and the error channel. -/
def ClientRecvBody.pollStream (body : ClientRecvBody S) : Poll FrameResult × ClientRecvBody S :=
  let (result,inner) := body.toServerRecvBody.pollFrame
  (result,{ body with toServerRecvBody := inner })

def ClientRecvBody.pollFrame (body : ClientRecvBody S) (now : ℕ) (err : Oneshot CoreError) :
    Poll FrameResult × ClientRecvBody S :=
  if body.isClosed then (.ready none,body)
  else if body.elapsed now then
    if body.trailersDone then (.ready none,{ body with isClosed := true, abortHandle := false })
    else
      (.ready (some (.ok (.trailers deadlineTrailers))),
        { body with isClosed := true, abortHandle := false, trailersDone := true })
  else if body.errRx then
    match err with
    | .sent e => (.ready (some (.error e)),{ body with errRx := false })
    | .closed => { body with errRx := false }.pollStream
    | .empty => body.pollStream
  else body.pollStream

def ClientRecvBody.pollAborts (body : ClientRecvBody S) (now : ℕ) : Bool :=
  !body.isClosed && body.elapsed now && body.abortHandle

/-- Whether dropping the body aborts the forwarder: `AbortOnDrop` still holds
the handle. -/
def ClientRecvBody.dropAborts (body : ClientRecvBody S) : Bool := body.abortHandle

/-- The outcomes of one poll: closed, deadline, error channel, or the stream. -/
theorem ClientRecvBody.pollFrame_cases (body : ClientRecvBody S) (now : ℕ) (err : Oneshot CoreError) :
    (body.isClosed = true ∧ body.pollFrame now err = (.ready none,body)) ∨
    (body.isClosed = false ∧ body.elapsed now = true ∧ ∃ r,
      body.pollFrame now err =
        (.ready r,{ body with isClosed := true, abortHandle := false, trailersDone := true }) ∧
      ((body.trailersDone = true ∧ r = none) ∨ r = some (.ok (.trailers deadlineTrailers)))) ∨
    (body.isClosed = false ∧ body.elapsed now = false ∧ body.errRx = true ∧ ∃ e, err = .sent e ∧
      body.pollFrame now err = (.ready (some (.error e)),{ body with errRx := false })) ∨
    (body.isClosed = false ∧ body.elapsed now = false ∧ (body.errRx = true → ∀ e, err ≠ .sent e) ∧ ∃ rx,
      (rx = true → body.errRx = true) ∧ body.pollFrame now err = (body.toServerRecvBody.pollFrame.1,
        { body with toServerRecvBody := body.toServerRecvBody.pollFrame.2, errRx := rx })) := by
  rcases body with ⟨⟨stream,dd,td⟩,ic,rx,ah,dl⟩
  cases ic with
  | true => exact .inl ⟨rfl,rfl⟩
  | false =>
    right
    cases he : elapsed ⟨⟨stream,dd,td⟩,false,rx,ah,dl⟩ now with
    | true =>
      left
      unfold pollFrame
      rw [he]
      cases td with
      | true => exact ⟨rfl,rfl,none,rfl,.inl ⟨rfl,rfl⟩⟩
      | false => exact ⟨rfl,rfl,some (.ok (.trailers deadlineTrailers)),rfl,.inr rfl⟩
    | false =>
      right
      unfold pollFrame
      rw [he]
      cases rx with
      | false => exact .inr ⟨rfl,rfl,nofun,false,nofun,rfl⟩
      | true =>
        cases err with
        | sent e => exact .inl ⟨rfl,rfl,rfl,e,rfl,rfl⟩
        | empty => exact .inr ⟨rfl,rfl,nofun,true,fun _ => rfl,rfl⟩
        | closed => exact .inr ⟨rfl,rfl,nofun,false,nofun,rfl⟩

theorem ClientRecvBody.pollFrame_deadline (body : ClientRecvBody S) (now : ℕ) (err : Oneshot CoreError) :
    (body.pollFrame now err).2.deadline = body.deadline := by
  rcases body.pollFrame_cases now err with ⟨-,hpoll⟩ | ⟨-,-,r,hpoll,-⟩ | ⟨-,-,-,e,-,hpoll⟩ |
    ⟨-,-,-,rx,-,hpoll⟩ <;> rw [hpoll]

end

end GrpcQuic
