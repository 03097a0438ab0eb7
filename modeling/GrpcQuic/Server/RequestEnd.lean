import GrpcQuic.Core.SendLoopEnd
import GrpcQuic.Server.Connection

/-! # Every request task can come to its end

Whatever the service answers, `handle_request` can send it or the head of a refusal.
No task waits for another one.
-/
namespace GrpcQuic
open Transition

namespace Server

structure Reply where
  ready : Bool
  answer : Option (ResponseHead × Body)

/-- The steps of a request task and its service that nothing from outside disturbs. -/
def RequestTask.Runs (reply : Reply) (task : RequestTask) : RequestLabel → Prop
  | .ready ok => ok = reply.ready
  | .called res => res = reply.answer
  | .send l => ∀ sender, task.phase = .responding sender → sender.Runs l
  | .panic => False
  | _ => True

def RequestTask.Open (task : RequestTask) : Prop := ∀ sender, task.phase = .responding sender → sender.Open

def Conn.Open (conn : Conn) : Prop := ∀ task ∈ conn.tasks, task.Open

variable {task next : RequestTask} {conn conn' : Conn} {permits permits' : ℕ}

theorem drop_open (task : RequestTask) : task.drop.Open := by
  intro sender hs
  unfold RequestTask.drop at hs
  cases hp : task.phase <;> simp only [hp,reduceCtorEq,RequestPhase.responding.injEq] at hs
  subst hs
  unfold Sender.Open
  rw [abort_await]
  trivial

theorem RequestTask.step_open (h : task.Open) {l : RequestLabel} (hst : task.step l = some next) : next.Open := by
  intro sender hs
  rcases RequestTask.step_cases hst with ⟨-,-,rfl⟩ | ⟨ok,-,-,rfl⟩ | ⟨-,-,rfl⟩ | ⟨head,body,-,-,rfl⟩ |
    ⟨ok,-,-,rfl⟩ | ⟨m,old,_,-,-,hp,hm,rfl⟩ | ⟨-,-,rfl⟩
  · cases hs
  · cases ok <;> cases hs
  · cases hs
  · cases hs
    exact ⟨rfl,fun rest hr => by cases hr⟩
  · cases hs
  · cases hs
    exact GrpcQuic.step_open (h old hp) hm
  · exact drop_open task sender hs

theorem Conn.step_open (h : conn.Open) {l : ConnLabel} (hst : conn.step permits l = some (permits',conn')) :
    conn'.Open := by
  have hset {r : ℕ} {next : RequestTask} (hn : next.Open) : (conn.setTask r next).Open := by
    intro task ht
    rcases List.mem_or_eq_of_mem_set ht with ht | rfl
    · exact h task ht
    · exact hn
  rcases Conn.step_cases hst with ⟨-,ht,-⟩ | ⟨-,rfl⟩ | ⟨path,-,rfl,-⟩ | ⟨r,task,next,⟨m,-,hm⟩,ht,rfl⟩ |
    ⟨r,task,next,-,hdel,ht,rfl⟩ | ⟨-,-,-,rfl⟩
  · unfold Conn.Open
    rw [ht]
    exact h
  · exact h
  · intro task ht
    rcases List.mem_append.mp ht with ht | ht
    · exact h task ht
    · cases List.mem_singleton.mp ht
      intro sender hs
      cases hs
  · exact hset (RequestTask.step_open (h task (List.mem_of_getElem? ht)) hm)
  · refine hset fun sender hs => h task (List.mem_of_getElem? ht) sender ?_
    unfold RequestTask.deliver at hdel
    split at hdel
    · cases hdel
      exact hs
    · cases hdel
  · intro task ht
    obtain ⟨old,hold,rfl⟩ := mem_discard ht
    exact h old hold

theorem setTask_setTask (conn : Conn) (r : ℕ) (task next : RequestTask) :
    (conn.setTask r task).setTask r next = conn.setTask r next := by
  simp only [Conn.setTask,List.set_set]

theorem abort_open (conn : Conn) : conn.abort.Open := by
  intro task ht
  obtain ⟨old,hold,rfl⟩ := mem_discard ht
  obtain ⟨first,-,rfl⟩ := List.mem_map.mp hold
  exact drop_open first

/-- Whatever the service answers, the task of a request can end. -/
theorem request_ends (reply : Reply) (h : task.Open) :
    CanMeet RequestTask.step (RequestTask.Runs reply) (fun t => t.ended = true) task := by
  have hresponding {task : RequestTask} {sender : Sender ResponseLoop} (hp : task.phase = .responding sender)
      (ho : sender.Open) :
      CanMeet RequestTask.step (RequestTask.Runs reply) (fun t => t.ended = true) task := by
    refine CanMeet.lift (R := fun u t => t.phase = .responding u) RequestLabel.send ?_ ?_ hp
      (sender_ends (L := responseLoop) ho)
    · intro u t l v ht hl hst
      refine ⟨fun w hw => ?_,?_⟩
      · cases ht.symm.trans hw
        exact hl
      · refine ⟨{ t.push (u.passed l) with phase := .responding v },?_,rfl⟩
        cases l with
        | abort => exact hl.elim
        | _ => simp only [RequestTask.step,ht,hst,Option.map_some]
    · intro u t ht hu
      simp only [RequestTask.ended,ht,hu,decide_true]
  have hrefusing {task : RequestTask} (hp : task.phase = .refusing) :
      CanMeet RequestTask.step (RequestTask.Runs reply) (fun t => t.ended = true) task :=
    .next (.refused true) trivial (by simp only [RequestTask.step,hp]; rfl) (.now rfl)
  have hcalling {task : RequestTask} (hp : task.phase = .calling) :
      CanMeet RequestTask.step (RequestTask.Runs reply) (fun t => t.ended = true) task := by
    cases ha : reply.answer with
    | none =>
      exact .next (.called none) ha.symm (by simp only [RequestTask.step,hp]; rfl) (hrefusing rfl)
    | some answer =>
      obtain ⟨head,body⟩ := answer
      refine .next (.called (some (head,body))) ha.symm (by simp only [RequestTask.step,hp]; rfl) ?_
      exact hresponding rfl ⟨rfl,fun rest hr => by cases hr⟩
  have hready {task : RequestTask} (hp : task.phase = .ready) :
      CanMeet RequestTask.step (RequestTask.Runs reply) (fun t => t.ended = true) task := by
    refine .next (.ready reply.ready) rfl (by simp only [RequestTask.step,hp]; rfl) ?_
    cases reply.ready
    · exact hrefusing rfl
    · exact hcalling rfl
  cases hp : task.phase with
  | spawned => exact .next .start trivial (by simp only [RequestTask.step,hp]; rfl) (hready rfl)
  | ready => exact hready hp
  | calling => exact hcalling hp
  | refusing => exact hrefusing hp
  | responding sender => exact hresponding hp (h sender hp)
  | ended => exact .now (by simp only [RequestTask.ended,hp])

end Server

end GrpcQuic
