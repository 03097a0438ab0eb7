import GrpcQuic.Client.CallSchedule

/-! # The error of a call whose retries run out

The log of a call determines what each of its attempts came to, and every history
of attempts that the policy allows is that of a call which returns. The error
returned is compared with the history.
-/
namespace GrpcQuic.Call
open Pool Retry Transition

variable {cfg : Config} {s t : State}

/-- The log of one attempt, read from the left, tells its outcome. -/
theorem attemptActions_cancel {k : ℕ} {o p : Outcome} {as bs : List Action}
    (h : attemptActions cfg k o ++ as = attemptActions cfg k p ++ bs) : o = p ∧ as = bs := by
  unfold attemptActions at h
  rw [List.append_assoc,List.append_assoc,List.append_cancel_left_eq] at h
  cases o <;> cases p <;> simp [Outcome.actions,opened] at h ⊢ <;> simp [h]

theorem attemptActions_ne_nil (cfg : Config) (k : ℕ) (o : Outcome) (as : List Action) :
    attemptActions cfg k o ++ as ≠ [] := by
  unfold attemptActions
  simp

theorem callActions_inj {k : ℕ} {os ps : List Outcome} (h : callActions cfg k os = callActions cfg k ps) :
    os = ps := by
  induction os generalizing k ps with
  | nil =>
    cases ps with
    | nil => rfl
    | cons p ps => exact (attemptActions_ne_nil cfg k p _ h.symm).elim
  | cons o os ih =>
    cases ps with
    | nil => exact (attemptActions_ne_nil cfg k o _ h).elim
    | cons p ps =>
      obtain ⟨rfl,hrest⟩ := attemptActions_cancel h
      rw [ih hrest]

def Outcome.events : Outcome → List Event
  | poolFailed e => [.pooled (.error e),.invalidated]
  | buildFailed entry m => [.pooled (.ok entry),.built (.error m)]
  | sendFailed entry e => [.pooled (.ok entry),.built (.ok ()),.sent (.error e),.invalidated]
  | recvFailed entry m => [.pooled (.ok entry),.built (.ok ()),.sent (.ok ()),.responded (.error m)]
  | succeeded entry head => [.pooled (.ok entry),.built (.ok ()),.sent (.ok ()),.responded (.ok head)]

def attemptEvents : ℕ → Outcome → List Event
  | 0, o => o.events
  | _ + 1, o => .woke :: o.events

def callEvents : ℕ → List Outcome → List Event
  | _, [] => []
  | k, o :: os => attemptEvents k o ++ callEvents (k + 1) os

theorem exec_retried {k : ℕ} {o : Outcome} (hk : k < cfg.retry.maxAttempts) (ho : o.retryable = true) :
    ∃ t : State, exec (step cfg) (s.enter cfg k) (attemptEvents k o) = some (t.enter cfg (k + 1)) ∧
      t.log = s.log ++ attemptActions cfg k o := by
  cases k with
  | zero =>
    cases o <;> simp only [Outcome.retryable,Bool.false_eq_true] at ho <;>
      simp only [State.enter,if_pos hk] <;> refine ⟨_,rfl,?_⟩ <;>
      simp [attemptActions,backoffActions,Outcome.actions]
  | succ k =>
    cases o <;> simp only [Outcome.retryable,Bool.false_eq_true] at ho <;>
      simp only [State.enter,if_pos hk] <;> refine ⟨_,rfl,?_⟩ <;>
      simp [attemptActions,backoffActions,Outcome.actions]

theorem exec_decided {k : ℕ} {o : Outcome} (hk : k < cfg.retry.maxAttempts) (ho : o.retryable = false) :
    ∃ t : State, exec (step cfg) (s.enter cfg k) (attemptEvents k o) = some t ∧ t.phase = .done o.result ∧
      t.log = s.log ++ attemptActions cfg k o := by
  cases k with
  | zero =>
    cases o <;> simp only [Outcome.retryable,Bool.true_eq_false] at ho <;>
      simp only [State.enter,if_pos hk] <;> refine ⟨_,rfl,rfl,?_⟩ <;>
      simp [attemptActions,backoffActions,Outcome.actions,opened]
  | succ k =>
    cases o <;> simp only [Outcome.retryable,Bool.true_eq_false] at ho <;>
      simp only [State.enter,if_pos hk] <;> refine ⟨_,rfl,rfl,?_⟩ <;>
      simp [attemptActions,backoffActions,Outcome.actions,opened]

theorem exec_allRetried (cfg : Config) (s : State) (k : ℕ) {os : List Outcome} (hall : AllRetryable os)
    (hk : k + os.length ≤ cfg.retry.maxAttempts) :
    ∃ t : State, exec (step cfg) (s.enter cfg k) (callEvents k os) = some (t.enter cfg (k + os.length)) ∧
      t.log = s.log ++ callActions cfg k os := by
  induction os generalizing s k with
  | nil => exact ⟨s,rfl,by simp [callActions]⟩
  | cons o os ih =>
    simp only [List.length_cons] at hk ⊢
    obtain ⟨u,hu,hlog⟩ := exec_retried (s := s) (show k < cfg.retry.maxAttempts by omega)
      (hall o List.mem_cons_self)
    obtain ⟨t,ht,hlog'⟩ := ih u (k + 1) (fun p hp => hall p (List.mem_cons_of_mem o hp)) (by omega)
    refine ⟨t,?_,?_⟩
    · rw [callEvents,exec_append,hu,Option.bind_some,ht,Nat.add_right_comm,Nat.add_assoc k]
    · rw [hlog',hlog,callActions,List.append_assoc]

theorem callEvents_append (k : ℕ) (os ps : List Outcome) :
    callEvents k (os ++ ps) = callEvents k os ++ callEvents (k + os.length) ps := by
  induction os generalizing k with
  | nil => rfl
  | cons o os ih =>
    simp only [List.cons_append,callEvents,ih,List.append_assoc,List.length_cons]
    rw [Nat.add_assoc,Nat.add_comm 1]

/-- Past the last attempt the head of the loop ends the call. -/
theorem enter_over {k : ℕ} (hk : ¬ k < cfg.retry.maxAttempts) :
    (∃ res, (s.enter cfg k).phase = .done res) ∧ (s.enter cfg k).log = s.log := by
  unfold State.enter
  rw [if_neg hk]
  exact ⟨⟨_,rfl⟩,rfl⟩

structure Made (cfg : Config) (os : List Outcome) : Prop where
  bounded : os.length ≤ cfg.retry.maxAttempts
  retried : AllRetryable os.dropLast
  ended : os.length = cfg.retry.maxAttempts ∨ ∃ o, os.getLast? = some o ∧ o.retryable = false

theorem exec_made {os : List Outcome} (h : Made cfg os) : ∃ s res,
    exec (step cfg) State.init (.acquired true :: callEvents 0 os) = some s ∧ s.phase = .done res ∧
      s.log = callActions cfg 0 os := by
  have hstart (es : List Event) : exec (step cfg) State.init (.acquired true :: es) =
      exec (step cfg) (State.init.enter cfg 0) es := rfl
  rcases List.eq_nil_or_concat os with rfl | ⟨ps,o,rfl⟩
  · obtain hlen | ⟨o,ho,-⟩ := h.ended
    · have hz : ¬ 0 < cfg.retry.maxAttempts := by rw [← hlen]; exact Nat.lt_irrefl 0
      obtain ⟨⟨res,hres⟩,hlog⟩ := enter_over (s := State.init) hz
      exact ⟨_,res,rfl,hres,hlog⟩
    · cases ho
  · have hps : AllRetryable ps := by simpa using h.retried
    have hlen : ps.length + 1 ≤ cfg.retry.maxAttempts := by simpa using h.bounded
    obtain ⟨t,ht,hlog⟩ := exec_allRetried cfg State.init 0 hps (by omega)
    rw [Nat.zero_add] at ht
    cases ho : o.retryable with
    | false =>
      obtain ⟨u,hu,hres,hlog'⟩ := exec_decided (s := t) (show ps.length < cfg.retry.maxAttempts by omega) ho
      refine ⟨u,o.result,?_,hres,?_⟩
      · rw [hstart,List.concat_eq_append,callEvents_append,exec_append,ht,Option.bind_some,Nat.zero_add]
        simpa [callEvents] using hu
      · rw [hlog',hlog,List.concat_eq_append,callActions_snoc,List.append_assoc]
        rfl
    | true =>
      have hmax : ps.length + 1 = cfg.retry.maxAttempts := by
        obtain hmax | ⟨p,hp,hf⟩ := h.ended
        · simpa using hmax
        · rw [List.concat_eq_append,List.getLast?_concat] at hp
          cases hp
          cases ho.symm.trans hf
      obtain ⟨u,hu,hlog'⟩ := exec_retried (s := t) (show ps.length < cfg.retry.maxAttempts by omega) ho
      have hout : ¬ ps.length + 1 < cfg.retry.maxAttempts := by omega
      obtain ⟨⟨res,hres⟩,hover⟩ := enter_over (s := u) hout
      refine ⟨u.enter cfg (ps.length + 1),res,?_,hres,?_⟩
      · rw [hstart,List.concat_eq_append,callEvents_append,exec_append,ht,Option.bind_some,Nat.zero_add]
        simpa [callEvents] using hu
      · rw [hover,hlog',hlog,List.concat_eq_append,callActions_snoc,List.append_assoc]
        rfl

/-- A call that has its result takes no more steps. -/
theorem exec_of_done {res : Except ClientError ResponseHead} (hs : s.phase = .done res) {es : List Event}
    (h : exec (step cfg) s es = some t) : t = s := by
  cases es with
  | nil => exact (Option.some.inj h).symm
  | cons e es =>
    obtain ⟨u,hu,-⟩ := exec_cons_eq_some.mp h
    have hnext := step_phase hu
    rw [hs] at hnext
    cases hnext

/-- A call that got its permit does not end with an empty log, unless it may make
no attempt at all. -/
theorem admitted_result {es : List Event} {res : Except ClientError ResponseHead}
    (h : exec (step cfg) State.init (.acquired true :: es) = some s) (hres : s.phase = .done res) :
    s.log ≠ [] ∨ ∃ n m, res = .error (.retriesExhausted n m) := by
  change exec (step cfg) (State.init.enter cfg 0) es = some s at h
  by_cases hpos : 0 < cfg.retry.maxAttempts
  · refine .inl (exec_invariant (I := fun u => u.log ≠ []) (fun u e v hu hst hv => ?_) ?_ h)
    · exact hu (List.prefix_nil.mp (hv ▸ step_log hst))
    · simp [State.enter,hpos]
  · refine .inr ⟨cfg.retry.maxAttempts,"no error captured",?_⟩
    have hdone : (State.init.enter cfg 0).phase =
        .done (.error (.retriesExhausted cfg.retry.maxAttempts "no error captured")) := by
      unfold State.enter
      rw [if_neg hpos]
      rfl
    rw [exec_of_done hdone h,hdone] at hres
    exact (Phase.done.inj hres).symm

/-- All the attempts the policy allows were made, and each failed in a way that is
retried. A call that gets no permit makes no attempt. -/
def Exhausted (cfg : Config) (permit : Bool) (os : List Outcome) : Prop :=
  permit = true ∧ os.length = cfg.retry.maxAttempts ∧ AllRetryable os

/-- The variant says that the retries ran out exactly when they did, with the
number of attempts and the last error, and any other failure keeps its variant. -/
structure ExhaustionReported (cfg : Config) (permit : Bool) (os : List Outcome)
    (res : Except ClientError ResponseHead) : Prop where
  reported : (∃ n m, res = .error (.retriesExhausted n m)) ↔ Exhausted cfg permit os
  counted : ∀ n m, res = .error (.retriesExhausted n m) →
    n = os.length ∧ ∀ e, lastError os = some e → m = e.toString
  own : ¬ Exhausted cfg permit os → ∀ e, res = .error e →
    (permit = false ∧ e = .closed) ∨ ∃ o, os.getLast? = some o ∧ o.result = .error e

theorem lastError_of_allRetryable {os : List Outcome} (h : AllRetryable os) (hne : os ≠ []) :
    ∃ e, lastError os = some e := by
  obtain ⟨ps,o,rfl⟩ := (List.eq_nil_or_concat os).resolve_left hne
  rw [List.concat_eq_append] at h ⊢
  have ho := h o (List.mem_append_right ps List.mem_cons_self)
  rw [lastError_snoc]
  cases o <;> simp only [Outcome.retryable,Bool.false_eq_true] at ho <;> exact ⟨_,rfl⟩

/-- The text of an error that reports exhaustion is longer than the text in it. -/
theorem toString_retriesExhausted_ne (n : ℕ) (m : String) :
    m ≠ (ClientError.retriesExhausted n m).toString := by
  intro h
  have hlen := congrArg String.length h
  change m.length = ("retries exhausted after " ++ n.repr ++ " attempts: " ++ m).length at hlen
  have hpos : "retries exhausted after ".length = 24 := rfl
  simp only [String.length_append,hpos] at hlen
  omega

theorem result_of_not_retryable {o : Outcome} (h : o.retryable = false) (n : ℕ) (m : String) :
    o.result ≠ .error (.retriesExhausted n m) := by
  cases o <;> simp only [Outcome.retryable,Bool.true_eq_false] at h <;> rintro ⟨⟩

theorem reported_of_closed : ExhaustionReported cfg false [] (.error .closed) := by
  refine ⟨⟨?_,?_⟩,?_,?_⟩
  · rintro ⟨n,m,⟨⟩⟩
  · rintro ⟨⟨⟩,-⟩
  · rintro n m ⟨⟩
  · rintro - e ⟨⟩
    exact .inl ⟨rfl,rfl⟩

theorem reported_of_decided (cfg : Config) (os : List Outcome) {o : Outcome} (ho : o.retryable = false)
    (permit : Bool) :
    ¬ Exhausted cfg permit (os ++ [o]) ∧ ExhaustionReported cfg permit (os ++ [o]) o.result := by
  have hex : ¬ Exhausted cfg permit (os ++ [o]) := by
    rintro ⟨-,-,hall⟩
    exact Bool.false_ne_true (ho.symm.trans (hall o (List.mem_append_right os List.mem_cons_self)))
  refine ⟨hex,⟨?_,fun h => (hex h).elim⟩,?_,?_⟩
  · rintro ⟨n,m,h⟩
    exact (result_of_not_retryable ho n m h).elim
  · intro n m h
    exact (result_of_not_retryable ho n m h).elim
  · intro _ e he
    exact .inr ⟨o,List.getLast?_concat,he⟩

/-- When the retries run out the last error comes back under its own variant. Only
a policy without attempts leaves none, and then the variant is right. -/
theorem reported_of_exhausted {os : List Outcome} (hall : AllRetryable os)
    (hlen : os.length = cfg.retry.maxAttempts) :
    ExhaustionReported cfg true os (.error ((lastError os).getD
      (.retriesExhausted cfg.retry.maxAttempts "no error captured"))) ↔ cfg.retry.maxAttempts = 0 := by
  have hex : Exhausted cfg true os := ⟨rfl,hlen,hall⟩
  constructor
  · intro hr
    by_contra hne
    obtain ⟨e,he⟩ := lastError_of_allRetryable hall (by rintro rfl; exact hne hlen.symm)
    obtain ⟨n,m,hnm⟩ := hr.reported.mpr hex
    have hm := (hr.counted n m hnm).2 e he
    rw [he] at hnm
    cases hnm
    exact toString_retriesExhausted_ne n m hm
  · intro hz
    obtain rfl := List.eq_nil_of_length_eq_zero (hlen.trans hz)
    refine ⟨⟨fun _ => hex,fun _ => ⟨_,_,rfl⟩⟩,?_,fun h => (h hex).elim⟩
    rintro n m ⟨⟩
    refine ⟨hz,?_⟩
    rintro e ⟨⟩

/-- In every call the error reports exhaustion as it should, unless there was at
least one attempt and all the attempts allowed failed in a way that is retried;
then it never does. Every history a policy allows is that of a call which returns. -/
theorem exhaustion_reported_iff (cfg : Config) :
    (∀ permit es s res, exec (step cfg) State.init (.acquired permit :: es) = some s →
      s.phase = .done res → ∃ os, (∀ ps, s.log = callActions cfg 0 ps ↔ ps = os) ∧
        (ExhaustionReported cfg permit os res ↔ ¬ (0 < cfg.retry.maxAttempts ∧ Exhausted cfg permit os))) ∧
    ∀ os, Made cfg os → ∃ s res,
      exec (step cfg) State.init (.acquired true :: callEvents 0 os) = some s ∧ s.phase = .done res ∧
        s.log = callActions cfg 0 os := by
  refine ⟨fun permit es s res h hres => ?_,fun os hos => exec_made hos⟩
  have honly {os : List Outcome} (hlog : s.log = callActions cfg 0 os) (ps : List Outcome) :
      s.log = callActions cfg 0 ps ↔ ps = os := by
    rw [hlog]
    exact ⟨fun hps => (callActions_inj hps).symm,fun hps => by rw [hps]⟩
  cases permit with
  | false =>
    change exec (step cfg) { State.init with phase := .done (.error .closed) } es = some s at h
    cases exec_of_done rfl h
    cases hres
    refine ⟨[],honly rfl,fun _ => ?_,fun _ => reported_of_closed⟩
    rintro ⟨-,⟨⟩,-⟩
  | true =>
    have hinv := exec_scheduleInv h
    unfold ScheduleInv at hinv
    rw [hres] at hinv
    cases hinv with
    | closed hlog hclosed =>
      rcases admitted_result h hres with hne | ⟨n,m,hnm⟩
      · exact (hne hlog).elim
      · cases hclosed.symm.trans hnm
    | exhausted os hall hlen hlog hout =>
      refine ⟨os,honly hlog,?_⟩
      rw [hout,reported_of_exhausted hall hlen]
      constructor
      · rintro hz ⟨hpos,-⟩
        omega
      · intro hno
        by_contra hne
        exact hno ⟨by omega,rfl,hlen,hall⟩
    | decided os o hall ho hlen hlog hout =>
      obtain ⟨hex,hrep⟩ := reported_of_decided cfg os ho true
      refine ⟨os ++ [o],honly hlog,fun _ hno => hex hno.2,fun _ => ?_⟩
      rw [hout]
      exact hrep

/-- A policy of one attempt, and a pool whose dial times out. -/
def singleAttempt : Config := ⟨"localhost",{ RetryPolicy.default with maxAttempts := 1 },
  ⟨"POST",none,"/echo",[]⟩⟩

theorem exhausted_call_not_reported : ¬ ∀ (cfg : Config) (es : List Event) (s : State)
    (res : Except ClientError ResponseHead) (os : List Outcome),
    exec (step cfg) State.init (.acquired true :: es) = some s → s.phase = .done res →
      s.log = callActions cfg 0 os → ExhaustionReported cfg true os res := by
  intro h
  have hr := h singleAttempt [.pooled (.error dialTimedOut),.invalidated] _ _ [.poolFailed dialTimedOut] rfl rfl rfl
  have hex : Exhausted singleAttempt true [.poolFailed dialTimedOut] := by
    refine ⟨rfl,rfl,fun o ho => ?_⟩
    cases List.mem_singleton.mp ho
    rfl
  obtain ⟨n,m,hnm⟩ := hr.reported.mpr hex
  cases hnm

end GrpcQuic.Call
