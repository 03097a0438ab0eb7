import GrpcQuic.Client.Call
import GrpcQuic.Core.Metrics
import GrpcQuic.Server.LifecycleSafety
import Mathlib.Algebra.BigOperators.Group.List.Basic

/-! # The request and stream counters

Any number of calls and a server move the counters of their processes; the roles
keep the two sides apart. A call counts its request when it has a connection and its
stream when `send_request` has succeeded, and it can fail in between.
-/
namespace GrpcQuic
open Transition

namespace Call

def Action.record : Action → Metrics → Metrics
  | .recordReconnect => Metrics.recordReconnect
  | .recordRequest role path => Metrics.recordRequest role path
  | .recordStream role => Metrics.recordStream role
  | _ => id

def Action.isRequest : Action → Bool
  | .recordRequest _ _ => true
  | _ => false

def Action.isStream : Action → Bool
  | .recordStream _ => true
  | _ => false

def Action.isLost : Action → Bool
  | .buildFailed _ => true
  | .sendFailed _ => true
  | _ => false

def Event.isLost : Event → Bool
  | .built (.error _) => true
  | .sent (.error _) => true
  | _ => false

def Phase.inFlight : Phase → ℕ
  | .building _ => 1
  | .sending _ => 1
  | _ => 0

def Phase.late : Phase → Prop
  | .awaitingResponse => True
  | .done _ => True
  | _ => False

def Action.role : Action → Option String
  | .recordRequest role _ => some role
  | .recordStream role => some role
  | _ => none

structure Records (s : State) (e : Event) (t : State) (as : List Action) : Prop where
  log : t.log = s.log ++ as
  role : ∀ a ∈ as, ∀ role, a.role = some role → role = "client"
  lost : as.countP Action.isLost = if e.isLost then 1 else 0
  balance : as.countP Action.isRequest + s.phase.inFlight =
    as.countP Action.isStream + as.countP Action.isLost + t.phase.inFlight
  opened : as.countP Action.isStream = 0 ∨
    (as.countP Action.isStream = 1 ∧ ¬ s.phase.late ∧ t.phase.late)
  late : s.phase.late → t.phase.late

variable {cfg : Config} {s t : State}

theorem enter_records (cfg : Config) (s : State) (k : ℕ) : ∃ as, (s.enter cfg k).log = s.log ++ as ∧
    (∀ a ∈ as, a.role = none ∧ a.isRequest = false ∧ a.isStream = false ∧ a.isLost = false) ∧
    (s.enter cfg k).phase.inFlight = 0 := by
  unfold State.enter
  split
  · split
    · refine ⟨[.recordReconnect,.sleep (cfg.retry.backoffFor (k - 1))],rfl,?_,rfl⟩
      intro a ha
      rcases List.mem_pair.mp ha with rfl | rfl <;> exact ⟨rfl,rfl,rfl,rfl⟩
    · refine ⟨[.getOrConnect],rfl,?_,rfl⟩
      intro a ha
      cases List.mem_singleton.mp ha
      exact ⟨rfl,rfl,rfl,rfl⟩
  · exact ⟨[],(List.append_nil _).symm,List.forall_mem_nil _,rfl⟩

theorem records_enter {e : Event} (k : ℕ) (he : e.isLost = false) (hs : s.phase.inFlight = 0)
    (hl : ¬ s.phase.late) : ∃ as, Records s e (s.enter cfg k) as := by
  obtain ⟨as,hlog,hall,hfl⟩ := enter_records cfg s k
  have hzero (p : Action → Bool) (hp : ∀ a ∈ as, p a = false) : as.countP p = 0 := by
    rw [List.countP_eq_zero]
    intro a ha
    simp [hp a ha]
  have hreq := hzero Action.isRequest fun a ha => (hall a ha).2.1
  have hstream := hzero Action.isStream fun a ha => (hall a ha).2.2.1
  have hlost := hzero Action.isLost fun a ha => (hall a ha).2.2.2
  refine ⟨as,hlog,fun a ha role hr => ?_,by rw [hlost,he]; rfl,by omega,.inl hstream,fun h => (hl h).elim⟩
  cases (hall a ha).1.symm.trans hr

theorem step_records {e : Event} (h : step cfg s e = some t) : ∃ as, Records s e t as := by
  rcases s with ⟨attempt,err,phase,log⟩
  cases e with
  | acquired permit =>
    cases phase <;> simp only [step,reduceCtorEq] at h
    cases permit <;> cases h
    · exact ⟨[],(List.append_nil _).symm,by simp,rfl,rfl,.inl rfl,fun _ => trivial⟩
    · exact records_enter 0 rfl rfl id
  | woke =>
    cases phase <;> simp only [step,reduceCtorEq] at h
    cases h
    exact ⟨_,rfl,by simp [Action.role],rfl,rfl,.inl rfl,id⟩
  | pooled res =>
    cases phase <;> simp only [step,reduceCtorEq] at h
    cases res <;> cases h
    · exact ⟨_,rfl,by simp [Action.role],rfl,rfl,.inl rfl,id⟩
    · exact ⟨_,rfl,by simp [Action.role],rfl,rfl,.inl rfl,id⟩
  | built res =>
    cases phase <;> simp only [step,reduceCtorEq] at h
    cases res <;> cases h
    · exact ⟨_,rfl,by simp [Action.role],rfl,rfl,.inl rfl,fun _ => trivial⟩
    · exact ⟨_,rfl,by simp [Action.role],rfl,rfl,.inl rfl,id⟩
  | sent res =>
    cases phase <;> simp only [step,reduceCtorEq] at h
    cases res <;> cases h
    · exact ⟨_,rfl,by simp [Action.role],rfl,rfl,.inl rfl,id⟩
    · exact ⟨_,rfl,by simp [Action.role],rfl,rfl,.inr ⟨rfl,id,trivial⟩,fun _ => trivial⟩
  | invalidated =>
    cases phase <;> simp only [step,reduceCtorEq] at h
    cases h
    exact records_enter _ rfl rfl id
  | responded res =>
    cases phase <;> simp only [step,reduceCtorEq] at h
    cases res <;> cases h
    · exact ⟨_,rfl,by simp [Action.role],rfl,rfl,.inl rfl,fun _ => trivial⟩
    · exact ⟨_,rfl,by simp [Action.role],rfl,rfl,.inl rfl,fun _ => trivial⟩

/-- A counted request has its stream, was lost or is in flight, and a call opens one
stream at most. -/
structure Counted (s : State) : Prop where
  balance : s.log.countP Action.isRequest =
    s.log.countP Action.isStream + s.log.countP Action.isLost + s.phase.inFlight
  once : s.log.countP Action.isStream ≤ 1
  early : ¬ s.phase.late → s.log.countP Action.isStream = 0

theorem counted_init : Counted State.init := ⟨rfl,Nat.zero_le 1,fun _ => rfl⟩

theorem Records.counted {e : Event} {as : List Action} (hr : Records s e t as) (h : Counted s) :
    Counted t := by
  have hbalance := hr.balance
  have hsum := h.balance
  refine ⟨?_,?_,fun hl => ?_⟩
  · rw [hr.log,List.countP_append,List.countP_append,List.countP_append]
    omega
  · rw [hr.log,List.countP_append]
    rcases hr.opened with hz | ⟨hone,hearly,-⟩
    · rw [hz]
      exact h.once
    · rw [h.early hearly,hone]
  · rw [hr.log,List.countP_append]
    rcases hr.opened with hz | ⟨-,-,hlate⟩
    · rw [hz]
      exact h.early fun hs => hl (hr.late hs)
    · exact (hl hlate).elim

def recordAll (m : Metrics) (as : List Action) : Metrics := as.foldl (fun m a => a.record m) m

theorem record_counters {a : Action} (h : ∀ role, a.role = some role → role = "client") (m : Metrics) :
    (a.record m).requests "client" = m.requests "client" + (if a.isRequest then 1 else 0) ∧
    (a.record m).streams "client" = m.streams "client" + (if a.isStream then 1 else 0) ∧
    (a.record m).requests "server" = m.requests "server" ∧
    (a.record m).streams "server" = m.streams "server" := by
  cases a with
  | recordRequest role path =>
    cases h role rfl
    simp [Action.record,Metrics.recordRequest,Metrics.requests,Metrics.streams,Action.isRequest,
      Action.isStream]
  | recordStream role =>
    cases h role rfl
    simp [Action.record,Metrics.recordStream,Metrics.requests,Metrics.streams,Action.isRequest,
      Action.isStream]
  | _ => exact ⟨rfl,rfl,rfl,rfl⟩

/-- The actions of a call move the counters of the client, and no others. -/
theorem recordAll_counters {as : List Action} (h : ∀ a ∈ as, ∀ role, a.role = some role → role = "client")
    (m : Metrics) :
    (recordAll m as).requests "client" = m.requests "client" + as.countP Action.isRequest ∧
    (recordAll m as).streams "client" = m.streams "client" + as.countP Action.isStream ∧
    (recordAll m as).requests "server" = m.requests "server" ∧
    (recordAll m as).streams "server" = m.streams "server" := by
  induction as generalizing m with
  | nil => exact ⟨rfl,rfl,rfl,rfl⟩
  | cons a as ih =>
    obtain ⟨hreq,hstr,hreq',hstr'⟩ := ih (fun b hb => h b (List.mem_cons_of_mem a hb)) (a.record m)
    obtain ⟨hreq₁,hstr₁,hreq₁',hstr₁'⟩ := record_counters (h a List.mem_cons_self) m
    simp only [List.countP_cons]
    refine ⟨hreq.trans ?_,hstr.trans ?_,hreq'.trans hreq₁',hstr'.trans hstr₁'⟩
    · omega
    · omega

end Call

namespace Server

def RequestAction.record : RequestAction → Metrics → Metrics
  | .recordRequest role path => Metrics.recordRequest role path
  | .recordStream role => Metrics.recordStream role

def RequestLabel.isStart : RequestLabel → Bool
  | .start => true
  | _ => false

def Label.isStart : Label → Bool
  | .conn _ (.request _ m) => m.isStart
  | _ => false

def State.taskLog (s : State) (c r : ℕ) : List RequestAction :=
  ((s.conns[c]?.bind fun conn => conn.tasks[r]?).map RequestTask.log).getD []

def logged (s : State) (l : Label) (t : State) : List RequestAction :=
  match l with
  | .conn c (.request r _) => (t.taskLog c r).drop (s.taskLog c r).length
  | _ => []

def recordAll (m : Metrics) (as : List RequestAction) : Metrics := as.foldl (fun m a => a.record m) m

/-- A request counts itself and its stream when it begins, and nothing later. -/
theorem RequestTask.step_log {task next : RequestTask} {l : RequestLabel} (h : task.step l = some next) :
    next.log = task.log ++
      if l.isStart then [.recordRequest "server" task.path,.recordStream "server"] else [] := by
  cases l with
  | start =>
    cases hp : task.phase <;> simp only [RequestTask.step,hp,reduceCtorEq] at h
    cases h
    rfl
  | ready ok =>
    cases hp : task.phase <;> simp only [RequestTask.step,hp,reduceCtorEq] at h
    cases h
    exact (List.append_nil _).symm
  | called res =>
    cases hp : task.phase <;> simp only [RequestTask.step,hp,reduceCtorEq] at h
    rcases res with _ | ⟨head,body⟩ <;> cases h <;> exact (List.append_nil _).symm
  | refused ok =>
    cases hp : task.phase <;> simp only [RequestTask.step,hp,reduceCtorEq] at h
    cases h
    exact (List.append_nil _).symm
  | send l =>
    simp only [RequestTask.step] at h
    split at h
    · cases h
    · obtain ⟨sender,-,rfl⟩ := Option.map_eq_some_iff.mp h
      exact (List.append_nil _).symm
    · cases h
  | panic =>
    simp only [RequestTask.step] at h
    split at h
    · cases h
    · cases h
      exact (List.append_nil _).symm

theorem step_logged {s t : State} {l : Label} (h : step s l = some t) :
    (l.isStart = false ∧ logged s l t = []) ∨ (l.isStart = true ∧
      ∃ path, logged s l t = [.recordRequest "server" path,.recordStream "server"]) := by
  cases l with
  | conn c m =>
    cases m with
    | request r m =>
      obtain ⟨conn,permits,conn',hc,hm,rfl⟩ := step_conn h
      obtain ⟨next,hstep,hconn⟩ := Option.map_eq_some_iff.mp hm
      obtain ⟨task,ht,htask⟩ := Option.bind_eq_some_iff.mp hstep
      cases hconn
      have hlc := (List.getElem?_eq_some_iff.mp hc).1
      have hlt := (List.getElem?_eq_some_iff.mp ht).1
      simp only [logged,State.taskLog,hc,ht,List.getElem?_set_self hlc,Option.bind_some,Conn.setTask,
        List.getElem?_set_self hlt,Option.map_some,Option.getD_some,RequestTask.step_log htask,
        List.drop_left]
      cases hstart : m.isStart with
      | false => exact .inl ⟨hstart,rfl⟩
      | true => exact .inr ⟨hstart,task.path,rfl⟩
    | _ => exact .inl ⟨rfl,rfl⟩
  | _ => exact .inl ⟨rfl,rfl⟩

theorem recordAll_counters (path : String) (m : Metrics) :
    (recordAll m [.recordRequest "server" path,.recordStream "server"]).requests "server" =
      m.requests "server" + 1 ∧
    (recordAll m [.recordRequest "server" path,.recordStream "server"]).streams "server" =
      m.streams "server" + 1 ∧
    (recordAll m [.recordRequest "server" path,.recordStream "server"]).requests "client" =
      m.requests "client" ∧
    (recordAll m [.recordRequest "server" path,.recordStream "server"]).streams "client" =
      m.streams "client" := by
  simp [recordAll,RequestAction.record,Metrics.recordRequest,Metrics.recordStream,Metrics.requests,
    Metrics.streams]

end Server

structure Traffic where
  calls : List (Call.Config × Call.State)
  server : Server.State
  metrics : Metrics

inductive TrafficLabel where
  | call (i : ℕ) (e : Call.Event)
  | server (l : Server.Label)

namespace Traffic

def init (cfgs : List Call.Config) (server : Server.QuicServer) : Traffic :=
  ⟨cfgs.map fun cfg => (cfg,.init),server.init,.zero⟩

def step (s : Traffic) : TrafficLabel → Option Traffic
  | .call i e =>
    s.calls[i]?.bind fun (cfg,call) => (Call.step cfg call e).map fun next =>
      { s with
        calls := s.calls.set i (cfg,next)
        metrics := Call.recordAll s.metrics (next.log.drop call.log.length) }
  | .server l =>
    (Server.step s.server l).map fun server =>
      { s with server, metrics := Server.recordAll s.metrics (Server.logged s.server l server) }

end Traffic

def TrafficLabel.isLost : TrafficLabel → Bool
  | call _ e => e.isLost
  | server _ => false

def TrafficLabel.isStart : TrafficLabel → Bool
  | call _ _ => false
  | server l => l.isStart

namespace Traffic
variable {s t : Traffic}

theorem step_cases {l : TrafficLabel} (h : s.step l = some t) :
    (∃ i e cfg call next as, l = .call i e ∧ s.calls[i]? = some (cfg,call) ∧ Call.Records call e next as ∧
      t.calls = s.calls.set i (cfg,next) ∧ t.metrics = Call.recordAll s.metrics as) ∨
    (t.calls = s.calls ∧ l.isLost = false ∧ l.isStart = false ∧ t.metrics = s.metrics) ∨
    (t.calls = s.calls ∧ l.isLost = false ∧ l.isStart = true ∧ ∃ path, t.metrics =
      Server.recordAll s.metrics [.recordRequest "server" path,.recordStream "server"]) := by
  cases l with
  | call i e =>
    obtain ⟨⟨cfg,call⟩,hi,hnext⟩ := Option.bind_eq_some_iff.mp h
    obtain ⟨next,hstep,rfl⟩ := Option.map_eq_some_iff.mp hnext
    obtain ⟨as,hr⟩ := Call.step_records hstep
    refine .inl ⟨i,e,cfg,call,next,as,rfl,hi,hr,rfl,?_⟩
    dsimp only
    rw [hr.log,List.drop_left]
  | server l =>
    obtain ⟨server,hstep,rfl⟩ := Option.map_eq_some_iff.mp h
    rcases Server.step_logged hstep with ⟨hl,hlog⟩ | ⟨hl,path,hlog⟩
    · exact .inr (.inl ⟨rfl,rfl,hl,by dsimp only; rw [hlog]; rfl⟩)
    · exact .inr (.inr ⟨rfl,rfl,hl,path,by dsimp only; rw [hlog]⟩)

structure Summed (s : Traffic) : Prop where
  counted : ∀ c ∈ s.calls, Call.Counted c.2
  requests : s.metrics.requests "client" = (s.calls.map fun c => c.2.log.countP Call.Action.isRequest).sum
  streams : s.metrics.streams "client" = (s.calls.map fun c => c.2.log.countP Call.Action.isStream).sum

def lost (s : Traffic) : ℕ := (s.calls.map fun c => c.2.log.countP Call.Action.isLost).sum

theorem sum_map_zero {α : Type*} (l : List α) {f : α → ℕ} (h : ∀ a ∈ l, f a = 0) : (l.map f).sum = 0 := by
  rw [List.sum_eq_zero_iff_forall_eq_nat]
  intro n hn
  obtain ⟨a,ha,rfl⟩ := List.mem_map.mp hn
  exact h a ha

theorem summed_init (cfgs : List Call.Config) (server : Server.QuicServer) :
    Summed (init cfgs server) := by
  have hnew (c : Call.Config × Call.State) (hc : c ∈ (init cfgs server).calls) : c.2 = .init := by
    obtain ⟨cfg,-,rfl⟩ := List.mem_map.mp hc
    rfl
  refine ⟨fun c hc => ?_,(sum_map_zero _ fun c hc => ?_).symm,(sum_map_zero _ fun c hc => ?_).symm⟩
  · rw [hnew c hc]
    exact Call.counted_init
  · rw [hnew c hc]
    rfl
  · rw [hnew c hc]
    rfl

/-- Replacing one call by its next state adds what that logs. -/
theorem sum_log {calls : List (Call.Config × Call.State)} {i : ℕ} {cfg : Call.Config}
    {call next : Call.State} {as : List Call.Action} (p : Call.Action → Bool)
    (hi : calls[i]? = some (cfg,call)) (hlog : next.log = call.log ++ as) :
    ((calls.set i (cfg,next)).map fun c => c.2.log.countP p).sum =
      (calls.map fun c => c.2.log.countP p).sum + as.countP p := by
  have hset := sum_map_set_add (fun c => c.2.log.countP p) hi (cfg,next)
  dsimp only at hset
  rw [hlog,List.countP_append] at hset
  omega

theorem step_summed (h : Summed s) {l : TrafficLabel} (hst : s.step l = some t) : Summed t := by
  rcases step_cases hst with ⟨i,e,cfg,call,next,as,-,hi,hr,hc,hm⟩ | ⟨hc,-,-,hm⟩ | ⟨hc,-,-,path,hm⟩
  · obtain ⟨hreq,hstr,-,-⟩ := Call.recordAll_counters hr.role s.metrics
    refine ⟨fun c hcall => ?_,?_,?_⟩
    · rcases List.mem_or_eq_of_mem_set (hc ▸ hcall) with hcall | rfl
      · exact h.counted c hcall
      · exact hr.counted (h.counted (cfg,call) (List.mem_of_getElem? hi))
    · rw [hm,hc,hreq,h.requests,sum_log _ hi hr.log]
    · rw [hm,hc,hstr,h.streams,sum_log _ hi hr.log]
  · exact ⟨hc ▸ h.counted,by rw [hm,hc]; exact h.requests,by rw [hm,hc]; exact h.streams⟩
  · obtain ⟨-,-,hreq,hstr⟩ := Server.recordAll_counters path s.metrics
    refine ⟨hc ▸ h.counted,?_,?_⟩
    · rw [hm,hc,hreq]
      exact h.requests
    · rw [hm,hc,hstr]
      exact h.streams

theorem step_lost {l : TrafficLabel} (hst : s.step l = some t) :
    t.lost = s.lost + if l.isLost then 1 else 0 := by
  rcases step_cases hst with ⟨i,e,cfg,call,next,as,rfl,hi,hr,hc,-⟩ | ⟨hc,hl,-,-⟩ | ⟨hc,hl,-,-⟩
  · unfold lost
    rw [hc,sum_log _ hi hr.log,hr.lost]
    rfl
  · unfold lost
    rw [hc,hl]
    rfl
  · unfold lost
    rw [hc,hl]
    rfl

/-- Each request that begins adds one to both counters of the server. -/
theorem step_served {l : TrafficLabel} (hst : s.step l = some t) :
    t.metrics.requests "server" = s.metrics.requests "server" + (if l.isStart then 1 else 0) ∧
      t.metrics.streams "server" = s.metrics.streams "server" + if l.isStart then 1 else 0 := by
  rcases step_cases hst with ⟨i,e,cfg,call,next,as,rfl,-,hr,-,hm⟩ | ⟨-,-,hl,hm⟩ | ⟨-,-,hl,path,hm⟩
  · obtain ⟨-,-,hreq,hstr⟩ := Call.recordAll_counters hr.role s.metrics
    rw [hm]
    exact ⟨hreq,hstr⟩
  · rw [hm,hl]
    exact ⟨rfl,rfl⟩
  · obtain ⟨hreq,hstr,-,-⟩ := Server.recordAll_counters path s.metrics
    rw [hm,hl]
    exact ⟨hreq,hstr⟩

def Returned (s : Traffic) : Prop := ∀ c ∈ s.calls, ∃ res, c.2.phase = .done res

/-- Both counters of the client are equal, no call has counted more than one request,
and both counters of the server count the requests that have begun. -/
structure CountersAgree (ls : List TrafficLabel) (s : Traffic) : Prop where
  client : s.metrics.requests "client" = s.metrics.streams "client"
  once : ∀ c ∈ s.calls, c.2.log.countP Call.Action.isRequest ≤ 1
  served : s.metrics.requests "server" = ls.countP TrafficLabel.isStart
  opened : s.metrics.streams "server" = ls.countP TrafficLabel.isStart

/-- Once no call is under way, what the client has counted too much it has lost. -/
theorem Summed.returned (h : Summed s) (hdone : s.Returned) :
    s.metrics.requests "client" = s.metrics.streams "client" + s.lost := by
  rw [h.requests,h.streams,lost,← List.sum_map_add]
  congr 1
  apply List.map_congr_left
  intro c hc
  obtain ⟨res,hres⟩ := hdone c hc
  rw [(h.counted c hc).balance,hres]
  rfl

theorem lost_eq_zero (h : s.lost = 0) : ∀ c ∈ s.calls, c.2.log.countP Call.Action.isLost = 0 := by
  intro c hc
  exact List.sum_eq_zero_iff_forall_eq_nat.mp h _ (List.mem_map_of_mem hc)

/-- After any run the surplus of requests is the number of attempts that failed between
the two counters, so the counters agree if and only if there was none. -/
theorem counters_agree_iff (cfgs : List Call.Config) (server : Server.QuicServer)
    {ls : List TrafficLabel} (h : exec step (init cfgs server) ls = some s) (hdone : s.Returned) :
    s.metrics.requests "client" = s.metrics.streams "client" + ls.countP TrafficLabel.isLost ∧
      (CountersAgree ls s ↔ ∀ l ∈ ls, l.isLost = false) := by
  have hsum : Summed s := exec_invariant (fun _ _ _ hu hst => step_summed hu hst) (summed_init cfgs server) h
  have hlost : s.lost = ls.countP TrafficLabel.isLost := by
    have hinit : (init cfgs server).lost = 0 := by
      apply sum_map_zero
      intro c hc
      obtain ⟨cfg,-,rfl⟩ := List.mem_map.mp hc
      rfl
    rw [exec_countP h fun _ _ _ => step_lost,hinit,Nat.zero_add]
  have hserved := exec_countP h fun _ _ _ hst => (step_served hst).1
  have hopened := exec_countP h fun _ _ _ hst => (step_served hst).2
  have hbalance := hsum.returned hdone
  rw [hlost] at hbalance
  refine ⟨hbalance,fun hagree => ?_,fun hnone => ?_⟩
  · have hzero : ls.countP TrafficLabel.isLost = 0 := by
      have := hagree.client
      omega
    intro l hl
    exact Bool.eq_false_iff.mpr (List.countP_eq_zero.mp hzero l hl)
  · have hzero : ls.countP TrafficLabel.isLost = 0 := by
      rw [List.countP_eq_zero]
      intro l hl
      simp [hnone l hl]
    refine ⟨by omega,fun c hc => ?_,hserved.trans (Nat.zero_add _),hopened.trans (Nat.zero_add _)⟩
    obtain ⟨res,hres⟩ := hdone c hc
    have hc' := hsum.counted c hc
    have hbal := hc'.balance
    have hnone' := lost_eq_zero (hlost.trans hzero) c hc
    rw [hnone',hres] at hbal
    exact hbal.trans_le hc'.once

/-- One call, whose `send_request` fails on the first connection and succeeds on the
second. -/
def resent : List TrafficLabel :=
  [.acquired true,.pooled (.ok ⟨⟨0⟩,⟨0⟩⟩),.built (.ok ()),.sent (.error (.h3Stream "connection lost")),
    .invalidated,.woke,.pooled (.ok ⟨⟨1⟩,⟨1⟩⟩),.built (.ok ()),.sent (.ok ()),.responded (.ok ⟨200,[]⟩)].map (.call 0)

def echoCalls : List Call.Config := [⟨"localhost",.default,⟨"POST",none,"/echo",[]⟩⟩]

theorem resent_counters : ∃ s, exec step (init echoCalls ⟨256⟩) resent = some s ∧ s.Returned ∧
    s.metrics.requests "client" = 2 ∧ s.metrics.streams "client" = 1 := by
  refine ⟨_,rfl,fun c hc => ?_,by decide,by decide⟩
  cases List.mem_singleton.mp hc
  exact ⟨_,rfl⟩

theorem counters_disagree : ¬ ∀ (cfgs : List Call.Config) (server : Server.QuicServer)
    (ls : List TrafficLabel) (s : Traffic), exec step (init cfgs server) ls = some s → s.Returned →
      CountersAgree ls s := by
  intro h
  obtain ⟨s,hs,hdone,hreq,hstr⟩ := resent_counters
  have hclient := (h echoCalls ⟨256⟩ resent s hs hdone).client
  omega

theorem counters_agree_iff_resent : ∃ s, exec step (init echoCalls ⟨256⟩) resent = some s ∧
    s.metrics.requests "client" = s.metrics.streams "client" + 1 := by
  obtain ⟨s,hs,hdone,-⟩ := resent_counters
  exact ⟨s,hs,(counters_agree_iff echoCalls ⟨256⟩ hs hdone).1⟩

end Traffic

end GrpcQuic
