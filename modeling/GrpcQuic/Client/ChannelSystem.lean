import GrpcQuic.Client.Builder
import GrpcQuic.Client.ConcurrencyLimit
import GrpcQuic.Client.GrpcTimeout
import GrpcQuic.Client.PoolProgress

/-! # A channel with everything its calls share

All calls of a channel and of its clones share the semaphore, the pool and the
clock. Each attempt of a call is a `get_or_connect` call of its own, named by the
call and the attempt, and what that returns moves the call on in the same step.
-/
namespace GrpcQuic.Client
open Transition

/-- The build of the crate, and `http::Request::builder`, whose verdict depends on
the head alone. -/
structure Platform where
  overflowChecks : Bool
  build : RequestHead → Except String Unit

structure State (Addr : Type*) where
  pool : Pool.State Addr (ℕ × ℕ)
  limit : ConcurrencyLimit.State
  now : ℕ

def QuicChannel.init {Addr : Type*} (ch : QuicChannel Addr) : State Addr := ⟨.init,.init ch.concurrencyLimit,0⟩

inductive Label where
  | call (parts : Call.RequestParts) (body : Body)
  | acquire (c : ℕ)
  | enter (c : ℕ)
  | lookup (c : ℕ)
  | receive (c : ℕ)
  | invalidate (c : ℕ)
  | own (c : ℕ) (l : Rpc.Label)
  | timeout (c : ℕ)
  | dropCall (c : ℕ)
  | dial (k : ℕ) (dial : Dial)
  | h3 (k : ℕ) (res : Except CoreError Unit)
  | complete (k : ℕ)
  | answer
  | finish
  | close (k : ℕ)
  | tick (n : ℕ)

/-- The steps of a call in which nothing shared takes part. -/
def ownStep : Rpc.Label → Bool
  | .call .woke => true
  | .call (.sent _) => true
  | .call (.responded _) => true
  | .forward _ => true
  | .arrive _ => true
  | .arriveEnd _ => true
  | .poll => true
  | .dropBody => true
  | _ => false

variable {Addr : Type*} [DecidableEq Addr]

def QuicChannel.request (ch : QuicChannel Addr) (parts : Call.RequestParts) (body : Body) (deadline : Option ℕ) :
    Rpc.Request :=
  ⟨⟨ch.serverName,ch.retry,parts⟩,body,deadline⟩

def State.call (s : State Addr) (c : ℕ) : Option ConcurrencyLimit.ChannelCall := s.limit.calls[c]?

def State.caller (s : State Addr) (c : ℕ) : ℕ × ℕ :=
  (c,match s.call c with
    | some call => call.rpc.call.attempt
    | none => 0)

def State.poolStep (s : State Addr) (l : Pool.Label Addr (ℕ × ℕ)) : Option (State Addr) :=
  (Pool.step s.pool l).map fun pool => { s with pool }

def State.limitSteps (s : State Addr) (ls : List ConcurrencyLimit.Label) : Option (State Addr) :=
  (exec ConcurrencyLimit.step s.limit ls).map fun limit => { s with limit }

def State.callSteps (s : State Addr) (c : ℕ) (ls : List Rpc.Label) : Option (State Addr) :=
  s.limitSteps (ls.map (.rpc c))

def resumeEvents (p : Platform) (head : RequestHead) : Pool.PoolResult → List Rpc.Label
  | .ok entry => [.call (.pooled (.ok entry)),.call (.built (p.build head))]
  | .error e => [.call (.pooled (.error e))]

def State.resume (p : Platform) (s : State Addr) (c : ℕ) : Option (State Addr) :=
  match s.pool.phase (s.caller c), s.call c with
  | .returned reply, some call => s.callSteps c (resumeEvents p call.req.call.h3Request reply.result)
  | _, _ => some s

/-- The end of a call future drops the receiver it was waiting on. -/
def State.abandon (s : State Addr) (c : ℕ) (l : Rpc.Label) : Option (State Addr) :=
  (s.callSteps c [l]).map fun t =>
    { t with pool := (Pool.step s.pool (.cancel (s.caller c))).getD s.pool }

/-- A header whose deadline overflows panics at the first poll: there is no such call. -/
def QuicChannel.step (p : Platform) (ch : QuicChannel Addr) (s : State Addr) : Label → Option (State Addr)
  | .call parts body =>
    match Timeout.deadline p.overflowChecks s.now parts.headers with
    | .ok deadline =>
      s.limitSteps [.call (ch.request parts body deadline),.rpc s.limit.calls.length (.tick s.now)]
    | .error _ => none
  | .acquire c => s.callSteps c [.call (.acquired true)]
  | .enter c =>
    match s.call c with
    | some call =>
      match call.rpc.pending, call.rpc.call.phase with
      | true, .pooling => s.poolStep (.enter (s.caller c) ch.remote)
      | _, _ => none
    | none => none
  | .lookup c => (s.poolStep (.lookup (s.caller c))).bind fun t => t.resume p c
  | .receive c => (s.poolStep (.receive (s.caller c))).bind fun t => t.resume p c
  | .invalidate c => (s.poolStep (.invalidate ch.remote)).bind fun t => t.callSteps c [.call .invalidated]
  | .own c l => if ownStep l then s.callSteps c [l] else none
  | .timeout c => s.abandon c .timeout
  | .dropCall c => s.abandon c .dropCall
  | .dial k dial =>
    match ch.connectFn dial with
    | .ok () => s.poolStep (.connected k)
    | .error e => s.poolStep (.connectFailed k e)
  | .h3 k res =>
    match res with
    | .ok () => s.poolStep (.h3Ready k)
    | .error e => s.poolStep (.h3Failed k e)
  | .complete k => s.poolStep (.complete k)
  | .answer => s.poolStep .answer
  | .finish => s.poolStep .finish
  | .close k => s.poolStep (.close k)
  | .tick n =>
    (s.limitSteps ((List.range s.limit.calls.length).map fun c => .rpc c (.tick n))).map fun t =>
      { t with now := t.now + n }

/-! ## The parts of the channel -/

variable {p : Platform} {ch : QuicChannel Addr} {s t : State Addr}

theorem poolStep_eq_some {l : Pool.Label Addr (ℕ × ℕ)} :
    s.poolStep l = some t ↔ ∃ pool, Pool.step s.pool l = some pool ∧ t = { s with pool } := by
  simp only [State.poolStep,Option.map_eq_some_iff,eq_comm (b := t)]

omit [DecidableEq Addr] in
theorem limitSteps_eq_some {ls : List ConcurrencyLimit.Label} :
    s.limitSteps ls = some t ↔ ∃ limit, exec ConcurrencyLimit.step s.limit ls = some limit ∧ t = { s with limit } := by
  simp only [State.limitSteps,Option.map_eq_some_iff,eq_comm (b := t)]

omit [DecidableEq Addr] in
theorem resume_cases {c : ℕ} (h : s.resume p c = some t) :
    (∃ reply call, s.pool.phase (s.caller c) = .returned reply ∧ s.call c = some call ∧
      s.callSteps c (resumeEvents p call.req.call.h3Request reply.result) = some t) ∨
    ((∀ reply, s.pool.phase (s.caller c) = .returned reply → s.call c = none) ∧ t = s) := by
  unfold State.resume at h
  split at h
  · rename_i reply call hp hc
    exact .inl ⟨reply,call,hp,hc,h⟩
  · rename_i hno
    refine .inr ⟨fun reply hp => ?_,(Option.some.inj h).symm⟩
    cases hc : s.call c with
    | none => rfl
    | some call => exact (hno reply call hp hc).elim

structure Parts (s t : State Addr) : Prop where
  pool : ∃ ls, exec Pool.step s.pool ls = some t.pool
  limit : ∃ ls, exec ConcurrencyLimit.step s.limit ls = some t.limit

theorem step_parts {l : Label} (h : ch.step p s l = some t) : Parts s t := by
  have hpool {q : Pool.Label Addr (ℕ × ℕ)} (hq : s.poolStep q = some t) : Parts s t := by
    obtain ⟨pool,hpq,rfl⟩ := poolStep_eq_some.mp hq
    exact ⟨⟨[q],exec_cons_eq_some.mpr ⟨pool,hpq,rfl⟩⟩,[],rfl⟩
  have hcalls {ls : List ConcurrencyLimit.Label} (hs : s.limitSteps ls = some t) : Parts s t := by
    obtain ⟨limit,hl,rfl⟩ := limitSteps_eq_some.mp hs
    exact ⟨⟨[],rfl⟩,ls,hl⟩
  have hboth {q : Pool.Label Addr (ℕ × ℕ)} {c : ℕ} (hq : (s.poolStep q).bind (fun u => u.resume p c) = some t) :
      Parts s t := by
    obtain ⟨u,hu,hr⟩ := Option.bind_eq_some_iff.mp hq
    obtain ⟨pool,hpq,rfl⟩ := poolStep_eq_some.mp hu
    rcases resume_cases hr with ⟨reply,call,-,-,hc⟩ | ⟨-,rfl⟩
    · obtain ⟨limit,hl,rfl⟩ := limitSteps_eq_some.mp hc
      exact ⟨⟨[q],exec_cons_eq_some.mpr ⟨pool,hpq,rfl⟩⟩,_,hl⟩
    · exact ⟨⟨[q],exec_cons_eq_some.mpr ⟨pool,hpq,rfl⟩⟩,[],rfl⟩
  have habandon {c : ℕ} {m : Rpc.Label} (ha : s.abandon c m = some t) : Parts s t := by
    obtain ⟨u,hu,rfl⟩ := Option.map_eq_some_iff.mp ha
    obtain ⟨limit,hl,rfl⟩ := limitSteps_eq_some.mp hu
    refine ⟨?_,_,hl⟩
    cases hq : Pool.step s.pool (.cancel (s.caller c)) with
    | none => exact ⟨[],rfl⟩
    | some pool => exact ⟨[.cancel (s.caller c)],exec_cons_eq_some.mpr ⟨pool,hq,rfl⟩⟩
  cases l with
  | call parts body =>
    simp only [QuicChannel.step] at h
    split at h
    · exact hcalls h
    · cases h
  | acquire c => exact hcalls h
  | enter c =>
    simp only [QuicChannel.step] at h
    split at h
    · split at h
      · exact hpool h
      · cases h
    · cases h
  | lookup c => exact hboth h
  | receive c => exact hboth h
  | invalidate c =>
    obtain ⟨u,hu,hr⟩ := Option.bind_eq_some_iff.mp h
    obtain ⟨pool,hq,rfl⟩ := poolStep_eq_some.mp hu
    obtain ⟨limit,hl,rfl⟩ := limitSteps_eq_some.mp hr
    exact ⟨⟨[.invalidate ch.remote],exec_cons_eq_some.mpr ⟨pool,hq,rfl⟩⟩,_,hl⟩
  | own c m =>
    simp only [QuicChannel.step] at h
    split at h
    · exact hcalls h
    · cases h
  | timeout c => exact habandon h
  | dropCall c => exact habandon h
  | dial k d =>
    simp only [QuicChannel.step] at h
    split at h <;> exact hpool h
  | h3 k res =>
    simp only [QuicChannel.step] at h
    split at h <;> exact hpool h
  | complete k => exact hpool h
  | answer => exact hpool h
  | finish => exact hpool h
  | close k => exact hpool h
  | tick n =>
    obtain ⟨u,hu,rfl⟩ := Option.map_eq_some_iff.mp h
    obtain ⟨limit,hl,rfl⟩ := limitSteps_eq_some.mp hu
    exact ⟨⟨[],rfl⟩,_,hl⟩

end GrpcQuic.Client
