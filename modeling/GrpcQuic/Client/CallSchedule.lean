import GrpcQuic.Client.Call
import Mathlib.Data.List.Count

/-! # The schedule of attempts of one call

The abstract schedule lists what each attempt comes to. The log of every run of
the call is the log of such a schedule, so the counts, the order of the sleeps
and the deciding attempt are read off the schedule.
-/
namespace GrpcQuic.Call
open Pool Retry Transition

inductive Outcome where
  | poolFailed (e : ClientError)
  | buildFailed (entry : PoolEntry) (message : String)
  | sendFailed (entry : PoolEntry) (e : CoreError)
  | recvFailed (entry : PoolEntry) (message : String)
  | succeeded (entry : PoolEntry) (head : ResponseHead)

def Outcome.retryable : Outcome → Bool
  | poolFailed _ => true
  | sendFailed _ _ => true
  | _ => false

def Outcome.result : Outcome → Except ClientError ResponseHead
  | poolFailed e => .error e
  | buildFailed _ m => .error (.requestBuild m)
  | sendFailed _ e => .error (.streamIo e.toString)
  | recvFailed _ m => .error (.streamIo m)
  | succeeded _ head => .ok head

def opened (cfg : Config) (entry : PoolEntry) : List Action :=
  [.pooled entry,.recordRequest "client" cfg.parts.path,.sendRequest entry cfg.h3Request,
    .streamOpened,.recordStream "client",.spawnForwarder]

def Outcome.actions (cfg : Config) : Outcome → List Action
  | poolFailed e => [.poolFailed e,.invalidate]
  | buildFailed entry m => [.pooled entry,.recordRequest "client" cfg.parts.path,.buildFailed m]
  | sendFailed entry e =>
    [.pooled entry,.recordRequest "client" cfg.parts.path,.sendRequest entry cfg.h3Request,
      .sendFailed e,.invalidate]
  | recvFailed entry m => opened cfg entry ++ [.recvFailed m,.abortForwarder]
  | succeeded entry head => opened cfg entry ++ [.responded head]

/-- Attempt `k` starts with a recorded reconnect and a sleep, unless it is the first. -/
def backoffActions (cfg : Config) : ℕ → List Action
  | 0 => []
  | k + 1 => [.recordReconnect,.sleep (cfg.retry.backoffFor k)]

def attemptActions (cfg : Config) (k : ℕ) (o : Outcome) : List Action :=
  backoffActions cfg k ++ .getOrConnect :: o.actions cfg

def callActions (cfg : Config) : ℕ → List Outcome → List Action
  | _, [] => []
  | k, o :: os => attemptActions cfg k o ++ callActions cfg (k + 1) os

theorem callActions_append (cfg : Config) (k : ℕ) (os ps : List Outcome) :
    callActions cfg k (os ++ ps) = callActions cfg k os ++ callActions cfg (k + os.length) ps := by
  induction os generalizing k with
  | nil => rfl
  | cons o os ih =>
    simp only [List.cons_append,callActions,ih,List.append_assoc,List.length_cons]
    rw [Nat.add_assoc,Nat.add_comm 1]

theorem callActions_snoc (cfg : Config) (os : List Outcome) (o : Outcome) :
    callActions cfg 0 (os ++ [o]) = callActions cfg 0 os ++ attemptActions cfg os.length o := by
  rw [callActions_append,Nat.zero_add]
  simp only [callActions,List.append_nil]

def lastError (os : List Outcome) : Option ClientError :=
  match os.getLast? with
  | none => none
  | some o => match o.result with
    | .error e => some e
    | .ok _ => none

def AllRetryable (os : List Outcome) : Prop := ∀ o ∈ os, o.retryable = true

theorem AllRetryable.snoc {os : List Outcome} {o : Outcome} (h : AllRetryable os)
    (ho : o.retryable = true) : AllRetryable (os ++ [o]) := by
  intro p hp
  rcases List.mem_append.mp hp with hp | hp
  · exact h p hp
  · exact List.mem_singleton.mp hp ▸ ho

theorem lastError_snoc (os : List Outcome) (o : Outcome) :
    lastError (os ++ [o]) = match o.result with | .error e => some e | .ok _ => none := by
  simp only [lastError,List.getLast?_concat]

def Phase.partialLog (cfg : Config) (k : ℕ) : Phase → List Action
  | .sleeping => backoffActions cfg k
  | .pooling => backoffActions cfg k ++ [.getOrConnect]
  | .building entry => backoffActions cfg k ++
      [.getOrConnect,.pooled entry,.recordRequest "client" cfg.parts.path]
  | .sending entry => backoffActions cfg k ++
      [.getOrConnect,.pooled entry,.recordRequest "client" cfg.parts.path,
        .sendRequest entry cfg.h3Request]
  | _ => []

inductive Finished (cfg : Config) (s : State) (res : Except ClientError ResponseHead) : Prop where
  | closed (hlog : s.log = []) (hres : res = .error .closed)
  | exhausted (os : List Outcome) (hall : AllRetryable os) (hlen : os.length = cfg.retry.maxAttempts)
      (hlog : s.log = callActions cfg 0 os)
      (hres : res = .error ((lastError os).getD
        (.retriesExhausted cfg.retry.maxAttempts "no error captured")))
  | decided (os : List Outcome) (o : Outcome) (hall : AllRetryable os) (ho : o.retryable = false)
      (hlen : os.length < cfg.retry.maxAttempts) (hlog : s.log = callActions cfg 0 (os ++ [o]))
      (hres : res = o.result)

def ScheduleInv (cfg : Config) (s : State) : Prop :=
  match s.phase with
  | .acquiring => s.log = [] ∧ s.lastError = none
  | .sleeping | .pooling | .building _ | .sending _ =>
    ∃ os, AllRetryable os ∧ s.attempt = os.length ∧ os.length < cfg.retry.maxAttempts ∧
      s.lastError = lastError os ∧ s.log = callActions cfg 0 os ++ s.phase.partialLog cfg os.length
  | .invalidating =>
    ∃ os, AllRetryable os ∧ s.attempt + 1 = os.length ∧ os.length ≤ cfg.retry.maxAttempts ∧
      s.lastError = lastError os ∧ s.log = callActions cfg 0 os
  | .awaitingResponse =>
    ∃ os entry, AllRetryable os ∧ os.length < cfg.retry.maxAttempts ∧
      s.log = callActions cfg 0 os ++ backoffActions cfg os.length ++ .getOrConnect :: opened cfg entry
  | .done res => Finished cfg s res

variable {cfg : Config} {s t : State}

/-- The loop head starts the next attempt or ends the call. -/
theorem enter_scheduleInv (os : List Outcome) (hall : AllRetryable os)
    (hlen : os.length ≤ cfg.retry.maxAttempts) (herr : s.lastError = lastError os)
    (hlog : s.log = callActions cfg 0 os) : ScheduleInv cfg (s.enter cfg os.length) := by
  unfold State.enter
  by_cases hlt : os.length < cfg.retry.maxAttempts
  · rw [if_pos hlt]
    by_cases hpos : os.length > 0
    · rw [if_pos hpos]
      obtain ⟨k,hk⟩ := Nat.exists_eq_succ_of_ne_zero (Nat.pos_iff_ne_zero.mp hpos)
      refine ⟨os,hall,rfl,hlt,herr,?_⟩
      simp only [hlog,Phase.partialLog,hk,backoffActions,Nat.succ_eq_add_one,Nat.add_sub_cancel]
    · rw [if_neg hpos]
      have hk : os.length = 0 := by omega
      refine ⟨os,hall,rfl,hlt,herr,?_⟩
      simp only [hlog,Phase.partialLog,hk,backoffActions,List.nil_append]
  · rw [if_neg hlt]
    exact .exhausted os hall (by omega) hlog (by rw [herr])

theorem step_scheduleInv (h : ScheduleInv cfg s) {e : Event} (hst : step cfg s e = some t) :
    ScheduleInv cfg t := by
  rcases s with ⟨attempt,err,phase,log⟩
  cases e with
  | acquired permit =>
    cases phase <;> simp only [step,reduceCtorEq] at hst
    obtain ⟨hlog,herr⟩ := h
    cases permit with
    | false => cases hst; exact .closed hlog rfl
    | true =>
      cases hst
      exact enter_scheduleInv [] (by simp [AllRetryable]) (Nat.zero_le _) herr hlog
  | woke =>
    cases phase <;> simp only [step,reduceCtorEq] at hst
    obtain ⟨os,hall,hatt,hlen,herr,hlog⟩ := h
    cases hst
    dsimp only at hatt herr hlog
    refine ⟨os,hall,hatt,hlen,herr,?_⟩
    simp only [hlog,Phase.partialLog,List.append_assoc]
  | pooled res =>
    cases phase <;> simp only [step,reduceCtorEq] at hst
    obtain ⟨os,hall,hatt,hlen,herr,hlog⟩ := h
    dsimp only at hatt herr hlog
    cases res with
    | ok entry =>
      cases hst
      refine ⟨os,hall,hatt,hlen,herr,?_⟩
      simp only [hlog,Phase.partialLog,List.append_assoc,List.cons_append,List.nil_append]
    | error e =>
      cases hst
      refine ⟨os ++ [.poolFailed e],hall.snoc rfl,by simp [hatt],by simp; omega,?_,?_⟩
      · rw [lastError_snoc]; rfl
      · simp only [hlog,callActions_snoc,attemptActions,Outcome.actions,Phase.partialLog,
          List.append_assoc,List.cons_append,List.nil_append]
  | built res =>
    cases phase <;> simp only [step,reduceCtorEq] at hst
    obtain ⟨os,hall,hatt,hlen,herr,hlog⟩ := h
    dsimp only at hatt herr hlog
    cases res with
    | ok _ =>
      cases hst
      refine ⟨os,hall,hatt,hlen,herr,?_⟩
      simp only [hlog,Phase.partialLog,List.append_assoc,List.cons_append,List.nil_append]
    | error m =>
      rename_i entry
      cases hst
      refine .decided os (.buildFailed entry m) hall rfl hlen ?_ rfl
      simp only [hlog,callActions_snoc,attemptActions,Outcome.actions,Phase.partialLog,
        List.append_assoc,List.cons_append,List.nil_append]
  | sent res =>
    cases phase <;> simp only [step,reduceCtorEq] at hst
    rename_i entry
    obtain ⟨os,hall,hatt,hlen,herr,hlog⟩ := h
    dsimp only at hatt herr hlog
    cases res with
    | ok _ =>
      cases hst
      refine ⟨os,entry,hall,hlen,?_⟩
      simp only [hlog,opened,Phase.partialLog,List.append_assoc,List.cons_append,List.nil_append]
    | error e =>
      cases hst
      refine ⟨os ++ [.sendFailed entry e],hall.snoc rfl,by simp [hatt],by simp; omega,?_,?_⟩
      · rw [lastError_snoc]; rfl
      · simp only [hlog,callActions_snoc,attemptActions,Outcome.actions,Phase.partialLog,
          List.append_assoc,List.cons_append,List.nil_append]
  | invalidated =>
    cases phase <;> simp only [step,reduceCtorEq] at hst
    obtain ⟨os,hall,hatt,hlen,herr,hlog⟩ := h
    dsimp only at hatt
    cases hst
    rw [hatt]
    exact enter_scheduleInv os hall hlen herr hlog
  | responded res =>
    cases phase <;> simp only [step,reduceCtorEq] at hst
    obtain ⟨os,entry,hall,hlen,hlog⟩ := h
    dsimp only at hlog
    cases res with
    | ok head =>
      cases hst
      refine .decided os (.succeeded entry head) hall rfl hlen ?_ rfl
      simp only [hlog,callActions_snoc,attemptActions,Outcome.actions,List.append_assoc,
        List.cons_append]
    | error m =>
      cases hst
      refine .decided os (.recvFailed entry m) hall rfl hlen ?_ rfl
      simp only [hlog,callActions_snoc,attemptActions,Outcome.actions,List.append_assoc,
        List.cons_append]

theorem exec_scheduleInv {es : List Event} (h : exec (step cfg) State.init es = some s) :
    ScheduleInv cfg s :=
  exec_invariant (fun _ _ _ hs hst => step_scheduleInv hs hst)
    (show ScheduleInv cfg State.init from ⟨rfl,rfl⟩) h

/-! Counts over the log of a schedule. -/

def sleeps (log : List Action) : List Duration :=
  log.filterMap fun a => match a with
    | .sleep d => some d
    | _ => none

theorem sleeps_append (as bs : List Action) : sleeps (as ++ bs) = sleeps as ++ sleeps bs :=
  List.filterMap_append

theorem sleeps_attempt (cfg : Config) (k : ℕ) (o : Outcome) :
    sleeps (attemptActions cfg k o) = if k = 0 then [] else [cfg.retry.backoffFor (k - 1)] := by
  cases k <;> cases o <;> rfl

theorem sleeps_callActions_succ (cfg : Config) (k : ℕ) (os : List Outcome) :
    sleeps (callActions cfg (k + 1) os) =
      (List.range' k os.length).map fun i => cfg.retry.backoffFor i := by
  induction os generalizing k with
  | nil => rfl
  | cons o os ih =>
    simp only [callActions,sleeps_append,sleeps_attempt,Nat.succ_ne_zero,↓reduceIte,
      Nat.add_sub_cancel,ih,List.length_cons,List.range'_succ,List.map_cons,List.singleton_append]

theorem sleeps_callActions (cfg : Config) (os : List Outcome) :
    sleeps (callActions cfg 0 os) =
      (List.range (os.length - 1)).map fun i => cfg.retry.backoffFor i := by
  cases os with
  | nil => rfl
  | cons o os =>
    simp only [callActions,sleeps_append,sleeps_attempt,↓reduceIte,List.nil_append,Nat.zero_add,
      sleeps_callActions_succ,List.length_cons,Nat.add_sub_cancel,List.range_eq_range']

theorem count_getOrConnect (cfg : Config) (k : ℕ) (os : List Outcome) :
    (callActions cfg k os).count .getOrConnect = os.length := by
  induction os generalizing k with
  | nil => rfl
  | cons o os ih =>
    have hone : (attemptActions cfg k o).count .getOrConnect = 1 := by
      cases k <;> cases o <;> rfl
    simp only [callActions,List.count_append,hone,ih,List.length_cons,Nat.add_comm]

theorem count_recordReconnect (cfg : Config) (k : ℕ) (os : List Outcome) :
    (callActions cfg k os).count .recordReconnect = (sleeps (callActions cfg k os)).length := by
  induction os generalizing k with
  | nil => rfl
  | cons o os ih =>
    have hone : (attemptActions cfg k o).count .recordReconnect =
        (sleeps (attemptActions cfg k o)).length := by
      cases k <;> cases o <;> rfl
    simp only [callActions,List.count_append,hone,ih,sleeps_append,List.length_append]

theorem count_invalidate (cfg : Config) (k : ℕ) (os : List Outcome) :
    (callActions cfg k os).count .invalidate = os.countP Outcome.retryable := by
  induction os generalizing k with
  | nil => rfl
  | cons o os ih =>
    have hone : (attemptActions cfg k o).count .invalidate = if o.retryable then 1 else 0 := by
      cases k <;> cases o <;> rfl
    simp only [callActions,List.count_append,hone,ih,List.countP_cons,Nat.add_comm]

/-- Only an attempt that got past the pool and `send_request` opens a stream or
starts a forwarder. -/
theorem count_opened_of_retryable (cfg : Config) {a : Action}
    (ha : a = .streamOpened ∨ a = .spawnForwarder) (k : ℕ) {os : List Outcome}
    (h : AllRetryable os) : (callActions cfg k os).count a = 0 := by
  induction os generalizing k with
  | nil => rfl
  | cons o os ih =>
    have ho := h o List.mem_cons_self
    have hzero : (attemptActions cfg k o).count a = 0 := by
      rcases ha with rfl | rfl <;> cases k <;> cases o <;> simp [Outcome.retryable] at ho <;> rfl
    simp only [callActions,List.count_append,hzero,
      ih (k + 1) fun p hp => h p (List.mem_cons_of_mem o hp)]

theorem count_opened_le_one (cfg : Config) {a : Action}
    (ha : a = .streamOpened ∨ a = .spawnForwarder) {os : List Outcome} (h : AllRetryable os)
    (o : Outcome) : (callActions cfg 0 (os ++ [o])).count a ≤ 1 := by
  rw [callActions_snoc,List.count_append,count_opened_of_retryable cfg ha 0 h,Nat.zero_add]
  rcases ha with rfl | rfl <;> cases os.length <;> cases o <;>
    simp [attemptActions,backoffActions,Outcome.actions,opened]

/-- What a schedule must satisfy to be that of a completed call. -/
structure Complete (cfg : Config) (os : List Outcome) (res : Except ClientError ResponseHead) :
    Prop where
  bounded : os.length ≤ cfg.retry.maxAttempts
  retried : ∀ o ∈ os.dropLast, o.retryable = true
  decides : ∀ o ∈ os, o.retryable = false → os.getLast? = some o ∧ res = o.result
  exhausts : AllRetryable os → (os = [] ∧ res = .error .closed) ∨
    (os.length = cfg.retry.maxAttempts ∧ res = .error ((lastError os).getD
      (.retriesExhausted cfg.retry.maxAttempts "no error captured")))

theorem Finished.complete {res : Except ClientError ResponseHead} (h : Finished cfg s res) :
    ∃ os, s.log = callActions cfg 0 os ∧ Complete cfg os res ∧
      ∀ a, a = .streamOpened ∨ a = .spawnForwarder → s.log.count a ≤ 1 := by
  cases h with
  | closed hlog hres =>
    refine ⟨[],hlog,⟨Nat.zero_le _,?_,?_,fun _ => .inl ⟨rfl,hres⟩⟩,?_⟩
    · intro o ho; cases ho
    · intro o ho; cases ho
    · intro a _; rw [hlog]; exact Nat.zero_le _
  | exhausted os hall hlen hlog hres =>
    refine ⟨os,hlog,⟨hlen.le,?_,?_,fun _ => .inr ⟨hlen,hres⟩⟩,?_⟩
    · exact fun o ho => hall o (List.mem_of_mem_dropLast ho)
    · intro o ho hf
      rw [hall o ho] at hf
      cases hf
    · intro a ha
      rw [hlog,count_opened_of_retryable cfg ha 0 hall]
      exact Nat.zero_le _
  | decided os o hall ho hlen hlog hres =>
    refine ⟨os ++ [o],hlog,⟨?_,?_,?_,?_⟩,?_⟩
    · rw [List.length_append]; exact hlen
    · rw [List.dropLast_concat]; exact hall
    · intro p hp hf
      rcases List.mem_append.mp hp with hp | hp
      · rw [hall p hp] at hf
        cases hf
      · cases List.mem_singleton.mp hp
        exact ⟨List.getLast?_concat,hres⟩
    · intro h
      rw [h o (List.mem_append_right os List.mem_cons_self)] at ho
      cases ho
    · intro a ha
      rw [hlog]
      exact count_opened_le_one cfg ha hall o

/-- The schedule of every call that comes to a result. -/
theorem call_schedule {es : List Event} {res : Except ClientError ResponseHead}
    (h : exec (step cfg) State.init es = some s) (hres : s.phase = .done res) :
    ∃ os, s.log = callActions cfg 0 os ∧ Complete cfg os res ∧
      s.log.count .streamOpened ≤ 1 ∧ s.log.count .spawnForwarder ≤ 1 ∧
      s.log.count .getOrConnect = os.length ∧
      s.log.count .invalidate = os.countP Outcome.retryable ∧
      sleeps s.log = (List.range (os.length - 1)).map (fun i => cfg.retry.backoffFor i) ∧
      s.log.count .recordReconnect = (sleeps s.log).length := by
  have hinv := exec_scheduleInv h
  unfold ScheduleInv at hinv
  rw [hres] at hinv
  obtain ⟨os,hlog,hos,hone⟩ := hinv.complete
  refine ⟨os,hlog,hos,hone _ (.inl rfl),hone _ (.inr rfl),?_,?_,?_,?_⟩
  · rw [hlog,count_getOrConnect]
  · rw [hlog,count_invalidate]
  · rw [hlog,sleeps_callActions]
  · rw [hlog,count_recordReconnect]

/-- A call that fails once in the pool and once in `send_request`, then succeeds. -/
def retriedCall : List Event :=
  [.acquired true,.pooled (.error dialTimedOut),.invalidated,.woke,.pooled (.ok ⟨⟨0⟩,⟨0⟩⟩),.built (.ok ()),
   .sent (.error (.h3Stream "connection lost")),.invalidated,.woke,.pooled (.ok ⟨⟨1⟩,⟨1⟩⟩),.built (.ok ()),
   .sent (.ok ()),.responded (.ok ⟨200,[]⟩)]

def echoCall : Config := ⟨"localhost",.default,⟨"POST",none,"/echo",[]⟩⟩

theorem call_schedule_retriedCall :
    ∃ s, exec (step echoCall) State.init retriedCall = some s ∧ s.log.count .spawnForwarder ≤ 1 := by
  obtain ⟨os,-,-,-,hone,-⟩ :=
    call_schedule (show exec (step echoCall) State.init retriedCall = some _ from rfl) rfl
  exact ⟨_,rfl,hone⟩

end GrpcQuic.Call
