import GrpcQuic.Client.RpcGuarantees
import GrpcQuic.Exchange.BodyDeadline
import GrpcQuic.Text.Decimal

/-! # The status that an expired deadline shows

Two timers watch one deadline: `timeout_at` around the whole call future and the
`Sleep` in the response body. What the caller sees of an expiry is the gRPC status
that tonic reads off the error or the trailers.
-/
namespace GrpcQuic.Rpc
open Transition

abbrev Code := ℕ

def Code.unknown : Code := 2
def Code.deadlineExceeded : Code := 4

structure Tonic where
  recognised : ClientError → Option Code
  ofTrailers : HeaderMap → Code

/-- An error in which tonic recognises no status becomes `UNKNOWN`. -/
def Tonic.ofError (tonic : Tonic) (e : ClientError) : Code := (tonic.recognised e).getD Code.unknown

def timeoutError : ClientError := .requestBuild "DeadlineExceeded"

def bodyExpiry (tonic : Tonic) (body : ClientRecvBody RecvHalf) (now : ℕ)
    (err : Oneshot CoreError) : List Code :=
  if body.isClosed then []
  else if body.elapsed now then
    match (body.pollFrame now err).1 with
    | .ready (some (.ok (.trailers trailers))) => [tonic.ofTrailers trailers]
    | _ => []
  else []

def State.expiry (tonic : Tonic) (s : State) : Label → List Code
  | .timeout => [tonic.ofError timeoutError]
  | .poll =>
    match s.body with
    | .present body => bodyExpiry tonic body s.now s.err
    | _ => []
  | _ => []

structure Observed where
  rpc : State
  statuses : List Code

def Observed.init : Observed := ⟨.init,[]⟩

def Observed.step (tonic : Tonic) (req : Request) (s : Observed) (l : Label) : Option Observed :=
  (Rpc.step req s.rpc l).map fun rpc => ⟨rpc,s.statuses ++ s.rpc.expiry tonic l⟩

/-- Every expiry shows the one status for it. -/
def OneStatus (s : Observed) : Prop := ∀ code ∈ s.statuses, code = Code.deadlineExceeded

/-- The step is not the expiry of a call that is still pending. -/
def NoTimeout (_ : Observed) (l : Label) : Prop := l ≠ .timeout

variable {tonic : Tonic} {req : Request} {s t : Observed} {l : Label}

/-- How tonic treats the two outcomes of the crates. -/
structure Tonic.Reads (tonic : Tonic) : Prop where
  unrecognised : ∀ message, tonic.recognised (.requestBuild message) = none
  trailers : ∀ trailers, trailers.get "grpc-status" = some "4" →
    tonic.ofTrailers trailers = Code.deadlineExceeded

theorem observed_step (hst : s.step tonic req l = some t) :
    Rpc.step req s.rpc l = some t.rpc ∧ t.statuses = s.statuses ++ s.rpc.expiry tonic l := by
  obtain ⟨rpc,hrpc,rfl⟩ := Option.map_eq_some_iff.mp hst
  exact ⟨hrpc,rfl⟩

theorem timeout_status (h : tonic.Reads) (s : State) : s.expiry tonic .timeout = [Code.unknown] := by
  unfold State.expiry Tonic.ofError timeoutError
  rw [h.unrecognised]
  rfl

/-- The body's own expiry, for every flag it may find. -/
theorem body_expiry (h : tonic.Reads) (body : ClientRecvBody RecvHalf) (now : ℕ) (err : Oneshot CoreError)
    (hc : body.isClosed = false) (he : body.elapsed now = true) :
    bodyExpiry tonic body now err =
      if body.trailersDone then [] else [Code.deadlineExceeded] := by
  unfold bodyExpiry
  rw [hc,he,pollFrame_elapsed err hc he]
  cases body.trailersDone with
  | true => rfl
  | false => exact congrArg (fun code => [code]) (h.trailers deadlineTrailers deadlineTrailers_status)

def TimerInv (req : Request) (s : State) : Prop :=
  ∀ body, s.body = .present body → body.deadline = req.deadline

theorem step_timerInv {s t : State} (ho : OwnerInv s) (h : TimerInv req s) (hst : Rpc.step req s l = some t) :
    TimerInv req t := by
  have hhalf {u : State} {f : RecvHalf → RecvHalf} (hu : s.mapHalf f = some u) : TimerInv req u := by
    rcases mapHalf_cases hu with ⟨half,-,-,rfl⟩ | ⟨b,-,hb,-,rfl⟩
    · exact h
    · intro body hbody
      cases hbody
      exact h b hb
  rcases step_cases hst with ⟨e,cs,-,hd,hcs,rfl⟩ | ⟨-,-,rfl⟩ | ⟨m,f,f',-,-,-,-,rfl⟩ |
    ⟨d,u,-,hu,rfl⟩ | ⟨e,u,-,hu,rfl⟩ | ⟨n,-,rfl⟩ | ⟨b,-,hb,rfl⟩ | ⟨b,-,-,rfl⟩
  · intro body hbody
    rcases onEvent_cases ho hd hcs with ⟨-,hb,ht⟩ | ⟨res,half,-,hb,-,ht | ht⟩ | ⟨-,hb,-,ht⟩ <;>
      rw [ht] at hbody
    · cases hb.symm.trans hbody
    · cases hbody
      rfl
    · cases hb.symm.trans hbody
    · cases hb.symm.trans hbody
  · exact h
  · exact h
  · have hu' := hhalf hu
    exact hu'
  · have hu' := hhalf hu
    exact hu'
  · exact h
  · intro body hbody
    cases hbody
    exact (b.pollFrame_deadline s.now s.err).trans (h b hb)
  · intro body hbody
    cases hbody

/-- The deadline may expire while the call future is pending, whatever it waits for. -/
theorem step_timeout {s : State} {deadline : ℕ} (hd : req.deadline = some deadline)
    (hnow : deadline ≤ s.now) (hp : s.pending = true) : Rpc.step req s .timeout = some s.dropCall := by
  simp only [Rpc.step,hd]
  rw [hp,decide_eq_true hnow]
  rfl

theorem expiry_poll {s : State} {body : ClientRecvBody RecvHalf} (hb : s.body = .present body) :
    s.expiry tonic .poll = bodyExpiry tonic body s.now s.err := by
  simp only [State.expiry,hb]

theorem bodyExpiry_status (h : tonic.Reads) (body : ClientRecvBody RecvHalf) (now : ℕ)
    (err : Oneshot CoreError) : ∀ code ∈ bodyExpiry tonic body now err, code = Code.deadlineExceeded := by
  intro code hcode
  cases hc : body.isClosed with
  | true =>
    unfold bodyExpiry at hcode
    rw [hc] at hcode
    cases hcode
  | false =>
    cases he : body.elapsed now with
    | false =>
      unfold bodyExpiry at hcode
      rw [hc,he] at hcode
      cases hcode
    | true =>
      rw [body_expiry h body now err hc he] at hcode
      split at hcode
      · cases hcode
      · exact List.mem_singleton.mp hcode

theorem step_oneStatus (h : tonic.Reads) (hP : OneStatus s) (hst : s.step tonic req l = some t) :
    OneStatus t ↔ NoTimeout s l := by
  obtain ⟨-,ht⟩ := observed_step hst
  unfold OneStatus
  rw [ht]
  constructor
  · rintro hall rfl
    have hcode := hall Code.unknown
      (List.mem_append_right _ (by rw [timeout_status h]; exact List.mem_singleton_self _))
    cases hcode
  · intro hl code hcode
    rcases List.mem_append.mp hcode with hcode | hcode
    · exact hP code hcode
    · cases l with
      | timeout => exact (hl rfl).elim
      | poll =>
        cases hb : s.rpc.body with
        | present body =>
          rw [expiry_poll hb] at hcode
          exact bodyExpiry_status h body _ _ code hcode
        | absent => simp [State.expiry,hb] at hcode
        | dropped => simp [State.expiry,hb] at hcode
      | _ => cases hcode

/-- In every run the expiries show one status exactly when none of them falls into
the time before the response. An expiry before the response shows `UNKNOWN`,
whatever the call waits for, and one in the response body `DEADLINE_EXCEEDED`. -/
theorem one_status_iff (h : tonic.Reads) {ls : List Label}
    (hrun : exec (Observed.step tonic req) .init ls = some s) :
    (Always (Observed.step tonic req) OneStatus .init ls ↔
      Meets (Observed.step tonic req) NoTimeout .init ls) ∧
    ∀ deadline, req.deadline = some deadline → deadline ≤ s.rpc.now →
      (s.rpc.pending = true → ∃ t, s.step tonic req .timeout = some t ∧
        t.statuses = s.statuses ++ [Code.unknown]) ∧
      ∀ body, s.rpc.body = .present body → body.isClosed = false → body.trailersDone = false →
        ∃ t, s.step tonic req .poll = some t ∧ t.statuses = s.statuses ++ [Code.deadlineExceeded] := by
  constructor
  · exact always_iff_meets (I := fun _ => True) (fun _ _ _ _ _ _ => trivial)
      (fun _ _ _ _ hP _ hst => step_oneStatus h hP hst) trivial
      (fun _ hc => (List.not_mem_nil hc).elim) meets_true hrun
  · intro deadline hd hnow
    have hinv : OwnerInv s.rpc ∧ TimerInv req s.rpc :=
      exec_invariant (I := fun u : Observed => OwnerInv u.rpc ∧ TimerInv req u.rpc)
        (fun u l v hu hst => ⟨step_ownerInv hu.1 (observed_step hst).1,
          step_timerInv hu.1 hu.2 (observed_step hst).1⟩) ⟨ownerInv_init,fun _ hb => by cases hb⟩ hrun
    refine ⟨fun hp => ?_,fun body hb hc ht => ?_⟩
    · refine ⟨⟨s.rpc.dropCall,s.statuses ++ s.rpc.expiry tonic .timeout⟩,?_,?_⟩
      · unfold Observed.step
        rw [step_timeout hd hnow hp]
        rfl
      · rw [timeout_status h]
    · have he : body.elapsed s.rpc.now = true := by
        rw [elapsed_of_deadline ((hinv.2 body hb).trans hd)]
        exact decide_eq_true hnow
      have hexpiry : s.rpc.expiry tonic .poll = [Code.deadlineExceeded] := by
        rw [expiry_poll hb,body_expiry h body _ _ hc he,ht]
        rfl
      have hpoll : ∃ rpc, Rpc.step req s.rpc .poll = some rpc := by
        simp only [Rpc.step,hb]
        exact ⟨_,rfl⟩
      obtain ⟨rpc,hrpc⟩ := hpoll
      refine ⟨⟨rpc,s.statuses ++ s.rpc.expiry tonic .poll⟩,?_,?_⟩
      · unfold Observed.step
        rw [hrpc]
        rfl
      · rw [hexpiry]

/-- tonic where the error carries no status and the trailers say theirs in decimal. -/
def plainTonic : Tonic where
  recognised _ := none
  ofTrailers trailers :=
    ((trailers.get "grpc-status").bind fun code => Text.readUnsigned 17 code.toList).getD Code.unknown

theorem plainTonic_reads : plainTonic.Reads := by
  refine ⟨fun _ => rfl,fun trailers ht => ?_⟩
  change ((trailers.get "grpc-status").bind _).getD _ = _
  rw [ht]
  rfl

def hastyRequest : Request :=
  ⟨⟨"localhost",⟨1,0,1,0⟩,⟨"POST",none,"/hello",[("grpc-timeout","5n")]⟩⟩,.new [] .clean,some 5⟩

theorem queued_expiry : ∃ s, exec (Observed.step plainTonic hastyRequest) .init [.tick 5,.timeout] = some s ∧
    s.statuses = [Code.unknown] := ⟨_,rfl,rfl⟩

theorem expiry_shows_unknown : ¬ ∀ (req : Request) (ls : List Label) (s : Observed),
    exec (Observed.step plainTonic req) .init ls = some s → OneStatus s := by
  intro h
  obtain ⟨s,hs,hcode⟩ := queued_expiry
  cases h hastyRequest _ s hs Code.unknown (by rw [hcode]; exact List.mem_singleton_self _)

theorem one_status_iff_queued :
    ¬ Meets (Observed.step plainTonic hastyRequest) NoTimeout .init [.tick 5,.timeout] ∧
    ∃ s t, exec (Observed.step plainTonic hastyRequest) .init [.tick 5] = some s ∧
      s.step plainTonic hastyRequest .timeout = some t ∧ t.statuses = [Code.unknown] := by
  refine ⟨fun hm => ?_,?_⟩
  · obtain ⟨s,hs,hcode⟩ := queued_expiry
    have hall := ((one_status_iff plainTonic_reads hs).1.mpr hm).last hs
    cases hall Code.unknown (by rw [hcode]; exact List.mem_singleton_self _)
  · have hs : exec (Observed.step plainTonic hastyRequest) .init [.tick 5] =
        some ⟨{ State.init with now := 5 },[]⟩ := rfl
    obtain ⟨t,hst,ht⟩ := ((one_status_iff plainTonic_reads hs).2 5 rfl (Nat.le_refl 5)).1 rfl
    exact ⟨_,t,hs,hst,ht⟩

end GrpcQuic.Rpc
