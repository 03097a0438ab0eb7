import GrpcQuic.Core.Errors
import GrpcQuic.Transition.Runs
import Mathlib.Logic.Function.Basic
import Mathlib.Data.Finset.Card
import Mathlib.Data.Finset.Range

/-! # The connection pool as a transition function

`lookup`, `install` and `evict` are the three sections of `pool.rs` that run under
the map mutex, acting on the slot of one address. The transition function
schedules them against connect tasks, cancelled callers, closing connections and
the completing task, which answers its waiters one by one while it still holds
the mutex.
-/
namespace GrpcQuic.Pool

/-- A handle of a `quinn::Connection`, identified by its stable id. -/
structure QuicConnection where
  stableId : ℕ
  deriving DecidableEq, Repr

structure H3ClientSession where
  sendReq : ℕ
  deriving DecidableEq, Repr

structure PoolEntry where
  quic : QuicConnection
  h3 : H3ClientSession
  deriving DecidableEq, Repr

abbrev PoolResult := Except ClientError PoolEntry

variable {Addr ι : Type*}

/-- A waiter is named by the `get_or_connect` call that owns the receiver. -/
inductive Slot (ι : Type*) where
  | connecting (waiters : List ι)
  | ready (entry : PoolEntry)

inductive Lookup where
  | reuse (entry : PoolEntry)
  | wait
  | spawn

def lookup (isClosed : QuicConnection → Bool) (tx : ι) : Option (Slot ι) → Slot ι × Lookup
  | some (.ready entry) =>
    if isClosed entry.quic then (.connecting [tx],.spawn) else (.ready entry,.reuse entry)
  | some (.connecting waiters) => (.connecting (waiters ++ [tx]),.wait)
  | none => (.connecting [tx],.spawn)

/-- The locked section of the connect task: the slot is taken out whatever it
is, and only a `Connecting` one is refilled and yields waiters. -/
def install (res : PoolResult) : Option (Slot ι) → Option (Slot ι) × List ι
  | some (.connecting waiters) =>
    match res with
    | .ok entry => (some (.ready entry),waiters)
    | .error _ => (none,waiters)
  | _ => (none,[])

def waiterResult : PoolResult → PoolResult
  | .ok entry => .ok entry
  | .error e => .error (.streamIo e.toString)

/-- The locked section of `invalidate`. -/
def evict (isClosed : QuicConnection → Bool) : Option (Slot ι) → Option (Slot ι)
  | some (.ready entry) => if isClosed entry.quic then none else some (.ready entry)
  | slot => slot

inductive TaskPhase where
  | connecting
  | h3Setup
  | locking (res : PoolResult)
  | completed (res : PoolResult)

def TaskPhase.inFlight : TaskPhase → Bool
  | completed _ => false
  | _ => true

structure Task (Addr : Type*) where
  addr : Addr
  phase : TaskPhase

inductive Reply where
  | reused (entry : PoolEntry)
  | answered (res : PoolResult)
  | taskCancelled

def Reply.result : Reply → PoolResult
  | reused entry => .ok entry
  | answered res => res
  | taskCancelled => .error (.streamIo GrpcQuic.taskCancelled)

inductive CallerPhase (Addr : Type*) where
  | idle
  | locking (addr : Addr)
  | waiting (addr : Addr)
  | returned (reply : Reply)
  | cancelled

structure Batch (Addr ι : Type*) where
  addr : Addr
  task : ℕ
  reply : PoolResult
  waiters : List ι

/-- The fields `owner`, `joined` and `sent` only record history: the last task
spawned for an address, the slot a caller's sender was put into, and everything
sent on its channel. A connection is named by the task that made it. -/
structure State (Addr ι : Type*) where
  map : Addr → Option (Slot ι)
  closed : ℕ → Bool
  tasks : ℕ → Option (Task Addr)
  nextTask : ℕ
  phase : ι → CallerPhase Addr
  batch : Option (Batch Addr ι)
  connectionsTotal : ℕ
  owner : Addr → ℕ
  joined : ι → Option (Addr × ℕ)
  sent : ι → List PoolResult

def State.init : State Addr ι where
  map _ := none
  closed _ := false
  tasks _ := none
  nextTask := 0
  phase _ := .idle
  batch := none
  connectionsTotal := 0
  owner _ := 0
  joined _ := none
  sent _ := []

/-- `close_reason().is_some()` of the connection behind a handle. -/
def State.isClosed (s : State Addr ι) (quic : QuicConnection) : Bool := s.closed quic.stableId

inductive Label (Addr ι : Type*) where
  | enter (i : ι) (addr : Addr)
  | lookup (i : ι)
  | cancel (i : ι)
  | receive (i : ι)
  | connected (k : ℕ)
  | connectFailed (k : ℕ) (e : ClientError)
  | h3Ready (k : ℕ)
  | h3Failed (k : ℕ) (e : CoreError)
  | complete (k : ℕ)
  | answer
  | finish
  | close (k : ℕ)
  | invalidate (addr : Addr)

def Label.caller : Label Addr ι → Option ι
  | .enter i _ => some i
  | .lookup i => some i
  | .cancel i => some i
  | .receive i => some i
  | _ => none

def Label.connectTask : Label Addr ι → Option ℕ
  | .connected k => some k
  | .connectFailed k _ => some k
  | .h3Ready k => some k
  | .h3Failed k _ => some k
  | .complete k => some k
  | _ => none

variable [DecidableEq Addr] [DecidableEq ι]

def State.waitersAt (s : State Addr ι) (addr : Addr) : List ι :=
  match s.map addr with
  | some (.connecting waiters) => waiters
  | _ => []

def State.batchWaiters (s : State Addr ι) : List ι :=
  match s.batch with
  | some b => b.waiters
  | none => []

def State.senderHeld (s : State Addr ι) (i : ι) (addr : Addr) : Bool :=
  i ∈ s.waitersAt addr || i ∈ s.batchWaiters

def State.setTask (s : State Addr ι) (k : ℕ) (task : Task Addr) : State Addr ι :=
  { s with tasks := Function.update s.tasks k (some task) }

def State.setPhase (s : State Addr ι) (i : ι) (p : CallerPhase Addr) : State Addr ι :=
  { s with phase := Function.update s.phase i p }

def State.getOrConnect (s : State Addr ι) (i : ι) (addr : Addr) : State Addr ι :=
  match lookup s.isClosed i (s.map addr) with
  | (_,.reuse entry) => s.setPhase i (.returned (.reused entry))
  | (slot,.wait) =>
    { s with
      map := Function.update s.map addr (some slot)
      phase := Function.update s.phase i (.waiting addr)
      joined := Function.update s.joined i (some (addr,s.owner addr)) }
  | (slot,.spawn) =>
    { s with
      map := Function.update s.map addr (some slot)
      tasks := Function.update s.tasks s.nextTask (some ⟨addr,.connecting⟩)
      nextTask := s.nextTask + 1
      owner := Function.update s.owner addr s.nextTask
      phase := Function.update s.phase i (.waiting addr)
      joined := Function.update s.joined i (some (addr,s.nextTask)) }

def State.completeTask (s : State Addr ι) (k : ℕ) (addr : Addr) (res : PoolResult) :
    State Addr ι :=
  let (slot,waiters) := install res (s.map addr)
  { s with
    map := Function.update s.map addr slot
    tasks := Function.update s.tasks k (some ⟨addr,.completed res⟩)
    batch := some ⟨addr,k,waiterResult res,waiters⟩ }

/-- A batch in progress holds the map mutex, so no other locked section runs. -/
def step (s : State Addr ι) : Label Addr ι → Option (State Addr ι)
  | .enter i addr =>
    match s.phase i with
    | .idle => some (s.setPhase i (.locking addr))
    | _ => none
  | .lookup i =>
    match s.phase i, s.batch with
    | .locking addr, none => some (s.getOrConnect i addr)
    | _, _ => none
  | .cancel i =>
    match s.phase i with
    | .locking _ | .waiting _ => some (s.setPhase i .cancelled)
    | _ => none
  | .receive i =>
    match s.phase i with
    | .waiting addr =>
      match s.sent i with
      | res :: _ => some (s.setPhase i (.returned (.answered res)))
      | [] => if s.senderHeld i addr then none else some (s.setPhase i (.returned .taskCancelled))
    | _ => none
  | .connected k =>
    match s.tasks k with
    | some ⟨addr,.connecting⟩ => some (s.setTask k ⟨addr,.h3Setup⟩)
    | _ => none
  | .connectFailed k e =>
    match s.tasks k with
    | some ⟨addr,.connecting⟩ => some (s.setTask k ⟨addr,.locking (.error e)⟩)
    | _ => none
  | .h3Ready k =>
    match s.tasks k with
    | some ⟨addr,.h3Setup⟩ =>
      some { s.setTask k ⟨addr,.locking (.ok ⟨⟨k⟩,⟨k⟩⟩)⟩ with connectionsTotal := s.connectionsTotal + 1 }
    | _ => none
  | .h3Failed k e =>
    match s.tasks k with
    | some ⟨addr,.h3Setup⟩ => some (s.setTask k ⟨addr,.locking (.error (.streamIo e.toString))⟩)
    | _ => none
  | .complete k =>
    match s.tasks k, s.batch with
    | some ⟨addr,.locking res⟩, none => some (s.completeTask k addr res)
    | _, _ => none
  | .answer =>
    match s.batch with
    | some ⟨addr,task,reply,i :: rest⟩ =>
      some { s with
        sent := Function.update s.sent i (s.sent i ++ [reply])
        batch := some ⟨addr,task,reply,rest⟩ }
    | _ => none
  | .finish =>
    match s.batch with
    | some ⟨_,_,_,[]⟩ => some { s with batch := none }
    | _ => none
  | .close k =>
    match s.tasks k with
    | some ⟨_,.connecting⟩ | none => none
    | some _ => some { s with closed := Function.update s.closed k true }
  | .invalidate addr =>
    match s.batch with
    | none => some { s with map := Function.update s.map addr (evict s.isClosed (s.map addr)) }
    | some _ => none

end GrpcQuic.Pool
