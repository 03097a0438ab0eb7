import GrpcQuic.Core.SendLoopInv

/-! # The task of one request

`handle_request` from its first poll to its end, and the stream it answers on. A
frame whose send has succeeded waits in the send buffer of the transport, which
delivers the frames of a stream in order and at any time.
-/
namespace GrpcQuic
variable {σ : Type*}

/-- The frame that this step of the loop has passed on successfully. `finish`
sends none. -/
def Sender.passed (s : Sender σ) : SendLabel → List SendOp
  | .sent =>
    match s.await with
    | .send .finish _ => []
    | .send op _ => [op]
    | _ => []
  | _ => []

namespace Server

/-- The await points of `handle_request`; `refusing` sends the 500 head. -/
inductive RequestPhase where
  | spawned
  | ready
  | calling
  | refusing
  | responding (sender : Sender ResponseLoop)
  | ended

inductive RequestAction where
  | recordRequest (role path : String)
  | recordStream (role : String)
  deriving DecidableEq

structure RequestTask where
  path : String
  phase : RequestPhase
  log : List RequestAction
  sent : List SendOp
  queued : List SendOp
  delivered : List SendOp

def RequestTask.new (path : String) : RequestTask := ⟨path,.spawned,[],[],[],[]⟩

inductive RequestLabel where
  | start
  | ready (ok : Bool)
  | called (res : Option (ResponseHead × Body))
  | refused (ok : Bool)
  | send (l : SendLabel)
  | panic

def RequestTask.ended (task : RequestTask) : Bool :=
  match task.phase with
  | .ended => true
  | .responding sender => decide (sender.await = .left)
  | _ => false

def RequestTask.push (task : RequestTask) (frames : List SendOp) : RequestTask :=
  { task with sent := task.sent ++ frames, queued := task.queued ++ frames }

/-- Dropping the future of the task, when it panics or is aborted. -/
def RequestTask.drop (task : RequestTask) : RequestTask :=
  { task with
    phase := match task.phase with
      | .responding sender => .responding (sender.abort responseLoop)
      | _ => .ended }

def RequestTask.step (task : RequestTask) : RequestLabel → Option RequestTask
  | .start =>
    match task.phase with
    | .spawned =>
      some { task with
        phase := .ready
        log := task.log ++ [.recordRequest "server" task.path,.recordStream "server"] }
    | _ => none
  | .ready ok =>
    match task.phase with
    | .ready => some { task with phase := if ok then .calling else .refusing }
    | _ => none
  | .called res =>
    match task.phase, res with
    | .calling, some (head,body) => some { task with phase := .responding (.respond head body) }
    | .calling, none => some { task with phase := .refusing }
    | _, _ => none
  | .refused ok =>
    match task.phase with
    | .refusing => some { task.push (if ok then [.head ⟨500,[]⟩] else []) with phase := .ended }
    | _ => none
  | .send l =>
    match task.phase, l with
    | .responding _, .abort => none
    | .responding sender, l =>
      (sender.step responseLoop l).map fun next =>
        { task.push (sender.passed l) with phase := .responding next }
    | _, _ => none
  | .panic => if task.ended then none else some task.drop

def RequestTask.deliver (task : RequestTask) : Option RequestTask :=
  match task.queued with
  | frame :: rest => some { task with queued := rest, delivered := task.delivered ++ [frame] }
  | [] => none

/-- The connection is closed with this stream's frames still in the buffer. -/
def RequestTask.discard (task : RequestTask) : RequestTask := { task with queued := [] }

def RequestTask.Conserved (task : RequestTask) : Prop := task.sent = task.delivered ++ task.queued

variable {task next : RequestTask}

theorem conserved_new (path : String) : (RequestTask.new path).Conserved := rfl

theorem RequestTask.Conserved.push (h : task.Conserved) (frames : List SendOp) :
    (task.push frames).Conserved := by
  unfold Conserved at h ⊢
  simp only [RequestTask.push,h,List.append_assoc]

theorem RequestTask.Conserved.step (h : task.Conserved) {l : RequestLabel}
    (hst : task.step l = some next) : next.Conserved := by
  cases l with
  | start =>
    cases hp : task.phase <;> simp only [RequestTask.step,hp,reduceCtorEq] at hst
    cases hst
    exact h
  | ready ok =>
    cases hp : task.phase <;> simp only [RequestTask.step,hp,reduceCtorEq] at hst
    cases hst
    exact h
  | called res =>
    cases hp : task.phase <;> simp only [RequestTask.step,hp,reduceCtorEq] at hst
    rcases res with _ | ⟨head,body⟩ <;> cases hst <;> exact h
  | refused ok =>
    cases hp : task.phase <;> simp only [RequestTask.step,hp,reduceCtorEq] at hst
    cases hst
    exact h.push _
  | send l =>
    simp only [RequestTask.step] at hst
    split at hst
    · cases hst
    · obtain ⟨sender,-,rfl⟩ := Option.map_eq_some_iff.mp hst
      exact h.push _
    · cases hst
  | panic =>
    simp only [RequestTask.step] at hst
    split at hst
    · cases hst
    · cases hst
      exact h

theorem RequestTask.Conserved.deliver (h : task.Conserved) (hst : task.deliver = some next) :
    next.Conserved := by
  unfold RequestTask.deliver at hst
  split at hst
  · rename_i frame rest hq
    cases hst
    unfold Conserved at h ⊢
    rw [h,hq,List.append_assoc]
    rfl
  · cases hst

/-- What each label needs of the task and what it leaves behind. -/
theorem RequestTask.step_cases {l : RequestLabel} (hst : task.step l = some next) :
    (l = .start ∧ task.phase = .spawned ∧ next = { task with
      phase := .ready
      log := task.log ++ [.recordRequest "server" task.path,.recordStream "server"] }) ∨
    (∃ ok, l = .ready ok ∧ task.phase = .ready ∧
      next = { task with phase := if ok then .calling else .refusing }) ∨
    (l = .called none ∧ task.phase = .calling ∧ next = { task with phase := .refusing }) ∨
    (∃ head body, l = .called (some (head,body)) ∧ task.phase = .calling ∧
      next = { task with phase := .responding (.respond head body) }) ∨
    (∃ ok, l = .refused ok ∧ task.phase = .refusing ∧
      next = { task.push (if ok then [.head ⟨500,[]⟩] else []) with phase := .ended }) ∨
    (∃ m sender sender', l = .send m ∧ m ≠ .abort ∧ task.phase = .responding sender ∧
      sender.step responseLoop m = some sender' ∧
      next = { task.push (sender.passed m) with phase := .responding sender' }) ∨
    (l = .panic ∧ task.ended = false ∧ next = task.drop) := by
  cases l with
  | start =>
    cases hp : task.phase <;> simp only [RequestTask.step,hp,reduceCtorEq] at hst
    exact .inl ⟨rfl,rfl,(Option.some.inj hst).symm⟩
  | ready ok =>
    cases hp : task.phase <;> simp only [RequestTask.step,hp,reduceCtorEq] at hst
    exact .inr (.inl ⟨ok,rfl,rfl,(Option.some.inj hst).symm⟩)
  | called res =>
    cases hp : task.phase <;> simp only [RequestTask.step,hp,reduceCtorEq] at hst
    rcases res with _ | ⟨head,body⟩
    · exact .inr (.inr (.inl ⟨rfl,rfl,(Option.some.inj hst).symm⟩))
    · exact .inr (.inr (.inr (.inl ⟨head,body,rfl,rfl,(Option.some.inj hst).symm⟩)))
  | refused ok =>
    cases hp : task.phase <;> simp only [RequestTask.step,hp,reduceCtorEq] at hst
    exact .inr (.inr (.inr (.inr (.inl ⟨ok,rfl,rfl,(Option.some.inj hst).symm⟩))))
  | send m =>
    simp only [RequestTask.step] at hst
    split at hst
    · cases hst
    · rename_i sender hp hm
      obtain ⟨sender',hs,rfl⟩ := Option.map_eq_some_iff.mp hst
      exact .inr (.inr (.inr (.inr (.inr (.inl ⟨_,sender,sender',rfl,hm,hp,hs,rfl⟩)))))
    · cases hst
  | panic =>
    simp only [RequestTask.step] at hst
    split at hst
    · cases hst
    · rename_i he
      exact .inr (.inr (.inr (.inr (.inr (.inr ⟨rfl,Bool.eq_false_iff.mpr he,(Option.some.inj hst).symm⟩)))))

/-- Everything is delivered exactly when nothing is queued any more. -/
theorem RequestTask.Conserved.delivered_iff (h : task.Conserved) :
    task.delivered = task.sent ↔ task.queued = [] := by
  rw [h]
  exact List.self_eq_append_right

theorem ended_cases (he : task.ended = true) :
    task.phase = .ended ∨ ∃ sender, task.phase = .responding sender ∧ sender.await = .left := by
  unfold RequestTask.ended at he
  split at he
  · exact .inl ‹_›
  · exact .inr ⟨_,‹_›,of_decide_eq_true he⟩
  · cases he

theorem step_of_ended (he : task.ended = true) (l : RequestLabel) : task.step l = none := by
  rcases ended_cases he with hp | ⟨sender,hp,ha⟩
  · cases l with
    | panic => exact if_pos he
    | _ => simp only [RequestTask.step,hp]
  · cases l with
    | panic => exact if_pos he
    | send l => cases l <;> simp only [RequestTask.step,hp,Sender.step,ha,Option.map_none]
    | _ => simp only [RequestTask.step,hp]

theorem not_ended_of_step {l : RequestLabel} (h : task.step l = some next) :
    task.ended = false := by
  refine Bool.eq_false_iff.mpr fun he => ?_
  cases (step_of_ended he l).symm.trans h

theorem drop_ended (task : RequestTask) : task.drop.ended = true := by
  unfold RequestTask.drop RequestTask.ended
  cases task.phase with
  | responding sender => exact decide_eq_true (abort_await responseLoop sender)
  | _ => rfl

end Server

end GrpcQuic
