import GrpcQuic.Client.Pool
import GrpcQuic.Client.Retry
import GrpcQuic.Core.Http

/-! # The future of one call

`QuicChannel::call` as a machine whose phases are its await points. An event is
what the awaited operation gives back; the code between two await points is one
step. The log collects what the call does to the pool, the stream, the metrics
and the clock, in program order.
-/
namespace GrpcQuic.Call
open Pool Retry

structure RequestParts where
  method : String
  authority : Option String
  path : String
  headers : HeaderMap

structure Config where
  serverName : String
  retry : RetryPolicy
  parts : RequestParts

def Config.uri (cfg : Config) : String :=
  "https://" ++ cfg.parts.authority.getD cfg.serverName ++ cfg.parts.path

/-- The head sent over h3: the caller's headers with the two gRPC ones set. -/
def Config.h3Request (cfg : Config) : RequestHead where
  method := cfg.parts.method
  uri := cfg.uri
  headers := (cfg.parts.headers.insert "content-type" "application/grpc").insert "te" "trailers"

inductive Action where
  | recordReconnect
  | sleep (d : Duration)
  | getOrConnect
  | poolFailed (e : ClientError)
  | pooled (entry : PoolEntry)
  | recordRequest (role path : String)
  | buildFailed (message : String)
  | sendRequest (entry : PoolEntry) (head : RequestHead)
  | sendFailed (e : CoreError)
  | streamOpened
  | recordStream (role : String)
  | spawnForwarder
  | recvFailed (message : String)
  | abortForwarder
  | responded (head : ResponseHead)
  | invalidate
  deriving DecidableEq

inductive Phase where
  | acquiring
  | sleeping
  | pooling
  | building (entry : PoolEntry)
  | sending (entry : PoolEntry)
  | invalidating
  | awaitingResponse
  | done (res : Except ClientError ResponseHead)

structure State where
  attempt : ℕ
  lastError : Option ClientError
  phase : Phase
  log : List Action

def State.init : State := ⟨0,none,.acquiring,[]⟩

inductive Event where
  | acquired (permit : Bool)
  | woke
  | pooled (res : PoolResult)
  | built (res : Except String Unit)
  | sent (res : Except CoreError Unit)
  | invalidated
  | responded (res : Except String ResponseHead)

/-- The head of the `for attempt in 0..max_attempts` loop. -/
def State.enter (cfg : Config) (s : State) (attempt : ℕ) : State :=
  if attempt < cfg.retry.maxAttempts then
    if attempt > 0 then
      { s with
        attempt
        phase := .sleeping
        log := s.log ++ [.recordReconnect,.sleep (cfg.retry.backoffFor (attempt - 1))] }
    else { s with attempt, phase := .pooling, log := s.log ++ [.getOrConnect] }
  else
    { s with phase := .done (.error
        (s.lastError.getD (.retriesExhausted cfg.retry.maxAttempts "no error captured"))) }

def step (cfg : Config) (s : State) : Event → Option State
  | .acquired permit =>
    match s.phase with
    | .acquiring =>
      if permit then some (s.enter cfg 0) else some { s with phase := .done (.error .closed) }
    | _ => none
  | .woke =>
    match s.phase with
    | .sleeping => some { s with phase := .pooling, log := s.log ++ [.getOrConnect] }
    | _ => none
  | .pooled res =>
    match s.phase with
    | .pooling =>
      match res with
      | .ok entry =>
        some { s with
          phase := .building entry
          log := s.log ++ [.pooled entry,.recordRequest "client" cfg.parts.path] }
      | .error e =>
        some { s with
          lastError := some e
          phase := .invalidating
          log := s.log ++ [.poolFailed e,.invalidate] }
    | _ => none
  | .built res =>
    match s.phase with
    | .building entry =>
      match res with
      | .ok () =>
        some { s with phase := .sending entry, log := s.log ++ [.sendRequest entry cfg.h3Request] }
      | .error m =>
        some { s with phase := .done (.error (.requestBuild m)), log := s.log ++ [.buildFailed m] }
    | _ => none
  | .sent res =>
    match s.phase with
    | .sending _ =>
      match res with
      | .ok () =>
        some { s with
          phase := .awaitingResponse
          log := s.log ++ [.streamOpened,.recordStream "client",.spawnForwarder] }
      | .error e =>
        some { s with
          lastError := some (.streamIo e.toString)
          phase := .invalidating
          log := s.log ++ [.sendFailed e,.invalidate] }
    | _ => none
  | .invalidated =>
    match s.phase with
    | .invalidating => some (s.enter cfg (s.attempt + 1))
    | _ => none
  | .responded res =>
    match s.phase with
    | .awaitingResponse =>
      match res with
      | .ok head => some { s with phase := .done (.ok head), log := s.log ++ [.responded head] }
      | .error m =>
        some { s with
          phase := .done (.error (.streamIo m))
          log := s.log ++ [.recvFailed m,.abortForwarder] }
    | _ => none

def Phase.LoopHead (p : Phase) : Prop := p = .sleeping ∨ p = .pooling ∨ ∃ e, p = .done (.error e)

inductive Phase.Next : Phase → Event → Phase → Prop where
  | admitted (p : Phase) (hp : p.LoopHead) : Next .acquiring (.acquired true) p
  | closed : Next .acquiring (.acquired false) (.done (.error .closed))
  | woke : Next .sleeping .woke .pooling
  | pooled (entry : PoolEntry) : Next .pooling (.pooled (.ok entry)) (.building entry)
  | poolFailed (e : ClientError) : Next .pooling (.pooled (.error e)) .invalidating
  | built (entry : PoolEntry) : Next (.building entry) (.built (.ok ())) (.sending entry)
  | buildFailed (entry : PoolEntry) (m : String) :
    Next (.building entry) (.built (.error m)) (.done (.error (.requestBuild m)))
  | sent (entry : PoolEntry) : Next (.sending entry) (.sent (.ok ())) .awaitingResponse
  | sendFailed (entry : PoolEntry) (e : CoreError) : Next (.sending entry) (.sent (.error e)) .invalidating
  | invalidated (p : Phase) (hp : p.LoopHead) : Next .invalidating .invalidated p
  | responded (head : ResponseHead) : Next .awaitingResponse (.responded (.ok head)) (.done (.ok head))
  | recvFailed (m : String) : Next .awaitingResponse (.responded (.error m)) (.done (.error (.streamIo m)))

theorem enter_loopHead (cfg : Config) (s : State) (k : ℕ) : (s.enter cfg k).phase.LoopHead := by
  unfold State.enter
  split
  · split
    · exact .inl rfl
    · exact .inr (.inl rfl)
  · exact .inr (.inr ⟨_,rfl⟩)

theorem Phase.LoopHead.ne_of {p q : Phase} (h : p.LoopHead) (hs : q ≠ .sleeping) (hp : q ≠ .pooling)
    (hd : ∀ r, q ≠ .done r) : p ≠ q := by
  rintro rfl
  rcases h with h | h | ⟨e,h⟩
  · exact hs h
  · exact hp h
  · exact hd _ h

/-- Every step of a call answers the await point it is at. -/
theorem step_phase {cfg : Config} {s t : State} {e : Event} (h : step cfg s e = some t) :
    s.phase.Next e t.phase := by
  cases e with
  | acquired permit =>
    cases hp : s.phase <;> simp only [step,hp,reduceCtorEq] at h
    cases permit <;> cases h
    · exact .closed
    · exact .admitted _ (enter_loopHead cfg s 0)
  | woke =>
    cases hp : s.phase <;> simp only [step,hp,reduceCtorEq] at h
    cases h
    exact .woke
  | pooled r =>
    cases hp : s.phase <;> simp only [step,hp,reduceCtorEq] at h
    cases r <;> cases h
    · exact .poolFailed _
    · exact .pooled _
  | built r =>
    cases hp : s.phase <;> simp only [step,hp,reduceCtorEq] at h
    cases r <;> cases h
    · exact .buildFailed _ _
    · exact .built _
  | sent r =>
    cases hp : s.phase <;> simp only [step,hp,reduceCtorEq] at h
    cases r <;> cases h
    · exact .sendFailed _ _
    · exact .sent _
  | invalidated =>
    cases hp : s.phase <;> simp only [step,hp,reduceCtorEq] at h
    cases h
    exact .invalidated _ (enter_loopHead cfg s _)
  | responded r =>
    cases hp : s.phase <;> simp only [step,hp,reduceCtorEq] at h
    cases r <;> cases h
    · exact .recvFailed _
    · exact .responded _

theorem enter_log (cfg : Config) (s : State) (k : ℕ) : s.log <+: (s.enter cfg k).log := by
  unfold State.enter
  split
  · split
    · exact List.prefix_append _ _
    · exact List.prefix_append _ _
  · exact List.prefix_rfl

theorem step_log {cfg : Config} {s t : State} {e : Event} (h : step cfg s e = some t) : s.log <+: t.log := by
  cases e with
  | acquired permit =>
    cases hp : s.phase <;> simp only [step,hp,reduceCtorEq] at h
    cases permit <;> cases h
    · exact List.prefix_rfl
    · exact enter_log cfg s 0
  | woke =>
    cases hp : s.phase <;> simp only [step,hp,reduceCtorEq] at h
    cases h
    exact List.prefix_append _ _
  | pooled r =>
    cases hp : s.phase <;> simp only [step,hp,reduceCtorEq] at h
    cases r <;> cases h <;> exact List.prefix_append _ _
  | built r =>
    cases hp : s.phase <;> simp only [step,hp,reduceCtorEq] at h
    cases r <;> cases h <;> exact List.prefix_append _ _
  | sent r =>
    cases hp : s.phase <;> simp only [step,hp,reduceCtorEq] at h
    cases r <;> cases h <;> exact List.prefix_append _ _
  | invalidated =>
    cases hp : s.phase <;> simp only [step,hp,reduceCtorEq] at h
    cases h
    exact enter_log cfg s _
  | responded r =>
    cases hp : s.phase <;> simp only [step,hp,reduceCtorEq] at h
    cases r <;> cases h <;> exact List.prefix_append _ _

/-- A dial has timed out; the pool hands its error on as text. -/
def dialTimedOut : ClientError := .streamIo (ClientError.transport (.connection "timed out")).toString

end GrpcQuic.Call
