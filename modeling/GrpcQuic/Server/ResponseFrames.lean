import GrpcQuic.Exchange.Completion
import GrpcQuic.Server.LifecycleSafety

/-! # The frames of the responses

A body is sent as its data frames and then its trailers, if it ends with any.
Whatever else happens on the server, the stream of a request carries the frames of
the service's answer in this order, or the head of a refusal, and nothing else.
-/
namespace GrpcQuic
variable {σ : Type*} {L : SendLoop σ} {s t : Sender σ}

def Body.message (body : Body) : List SendOp :=
  body.frames.map SendOp.data ++
    match body.ended, body.ending with
    | false, .trailers tr => [.trailers tr]
    | _, _ => []

def Sender.script (s : Sender σ) : List SendOp :=
  match s.await with
  | .body => s.body.message
  | .send (.head hd) _ => .head hd :: s.body.message
  | .send (.data d) _ => .data d :: s.body.message
  | .send (.trailers tr) _ => [.trailers tr]
  | .send .finish _ => []
  | .left => []

theorem leave_script (s : Sender σ) : (s.leave L).script = [] := rfl

theorem exit_script (s : Sender σ) (r : Exit × σ) : (s.exit L r).script = [] := by
  obtain ⟨e,loop⟩ := r
  cases e <;> rfl

theorem passed_nil {l : SendLabel} (hl : l ≠ .sent) (s : Sender σ) : s.passed l = [] := by
  cases l with
  | sent => exact (hl rfl).elim
  | _ => rfl

theorem abort_script (s : Sender σ) : (s.abort L).script = [] := by
  unfold Sender.script
  rw [abort_await]

/-- A poll takes the next frame of the message in hand. -/
theorem onFrame_script (s : Sender σ) :
    ({ s with body := s.body.next.2 }.onFrame L s.body.next.1).script = s.body.message := by
  cases hf : s.body.frames with
  | cons d rest =>
    rw [Body.next_of_cons hf]
    simp only [Sender.onFrame,Sender.script,Body.message,hf,List.map_cons,List.cons_append]
  | nil =>
    unfold Body.next Body.message
    rw [hf]
    cases s.body.ended with
    | true => exact exit_script _ _
    | false =>
      cases s.body.ending with
      | clean => exact exit_script _ _
      | error e => exact exit_script _ _
      | trailers tr => rfl

/-- A step passes on the first frames of the script, and what remains of it follows
them; only where a send fails or the task is aborted it drops the rest. -/
theorem step_script {l : SendLabel} (hst : s.step L l = some t) :
    s.passed l ++ t.script <+: s.script ∧ (l.orderly = true → s.passed l ++ t.script = s.script) := by
  have hall (he : s.passed l ++ t.script = s.script) :
      s.passed l ++ t.script <+: s.script ∧ (l.orderly = true → s.passed l ++ t.script = s.script) :=
    ⟨he ▸ List.prefix_rfl,fun _ => he⟩
  rcases step_cases hst with ⟨rfl,ha,rfl⟩ | ⟨rfl,op,-,ha,rfl⟩ | ⟨n,d,rest,rfl,ha,rfl⟩ |
    ⟨rfl,-,op,stage,ha,-,rfl⟩ | ⟨rfl,op,ha,rfl⟩ | ⟨m,op,stage,rfl,ha,-,rfl⟩ | ⟨rfl,ht⟩
  · refine hall ((onFrame_script s).trans ?_)
    simp only [Sender.script,ha]
  · refine hall ?_
    cases op <;> simp only [Sender.passed,Sender.script,ha,List.nil_append]
  · refine hall ?_
    simp only [Sender.passed,Sender.script,ha,List.nil_append]
  · refine hall ?_
    cases op <;> simp only [Sender.passed,Sender.script,ha,List.nil_append]
  · refine hall ?_
    cases op <;> simp only [Sender.passed,Sender.script,Sender.onSent,Sender.leave,ha,List.nil_append,
      List.singleton_append]
  · have hnil : ({ s with wire := s.wire.break }.onFailed L m op).script = [] := by
      cases op with
      | data d => exact exit_script _ _
      | _ => rfl
    rw [passed_nil (by simp) s,hnil]
    exact ⟨List.nil_prefix,by rintro ⟨⟩⟩
  · have hnil : t.script = [] := by
      rcases ht with ⟨ha,rfl⟩ | rfl
      · simp only [Sender.script,ha]
      · exact leave_script s
    rw [passed_nil (by simp) s,hnil]
    exact ⟨List.nil_prefix,by rintro ⟨⟩⟩

namespace Server
open Transition

/-- The task has passed on frames of an answer in `P` or of a refusal, and as long
as it is calm it has left none out. -/
def RequestTask.Framed (P : ResponseHead → Body → Prop) (calm : Prop) (task : RequestTask) : Prop :=
  match task.phase with
  | .responding sender => ∃ head body, P head body ∧
      task.sent ++ sender.script <+: .head head :: body.message ∧
      (calm → task.sent ++ sender.script = .head head :: body.message)
  | .ended => task.sent <+: [.head ⟨500,[]⟩]
  | _ => task.sent = []

variable {P Q : ResponseHead → Body → Prop} {calm calm' : Prop} {task next : RequestTask}

theorem RequestTask.Framed.mono (h : task.Framed P calm) (hP : ∀ head body, P head body → Q head body)
    (hc : calm' → calm) : task.Framed Q calm' := by
  unfold RequestTask.Framed at h ⊢
  split
  · rename_i sender hp
    rw [hp] at h
    obtain ⟨head,body,ha,hpre,heq⟩ := h
    exact ⟨head,body,hP head body ha,hpre,fun hcalm => heq (hc hcalm)⟩
  · rename_i hp
    rw [hp] at h
    exact h
  · rename_i hno hne
    split at h
    · rename_i sender hp
      exact (hno sender hp).elim
    · rename_i hp
      exact (hne hp).elim
    · exact h

theorem RequestTask.Framed.drop (h : task.Framed P calm) (hc : ¬ calm') : task.drop.Framed P calm' := by
  unfold RequestTask.Framed at h
  unfold RequestTask.Framed RequestTask.drop
  cases hp : task.phase <;> rw [hp] at h <;> simp only
  case responding sender =>
    obtain ⟨head,body,ha,hpre,-⟩ := h
    rw [abort_script,List.append_nil]
    exact ⟨head,body,ha,(List.prefix_append _ _).trans hpre,fun hcalm => (hc hcalm).elim⟩
  case ended => exact h
  all_goals
    rw [h]
    exact List.nil_prefix

def RequestLabel.disturbs : RequestLabel → Bool
  | .send (.failed _) => true
  | .panic => true
  | _ => false

theorem RequestTask.Framed.step (h : task.Framed P calm) {l : RequestLabel} (hst : task.step l = some next)
    (hl : ∀ head body, l = .called (some (head,body)) → P head body) (hc : calm → l.disturbs = false) :
    next.Framed P calm := by
  unfold RequestTask.Framed at h
  rcases RequestTask.step_cases hst with ⟨-,hp,rfl⟩ | ⟨ok,-,hp,rfl⟩ | ⟨-,hp,rfl⟩ | ⟨head,body,rfl,hp,rfl⟩ |
    ⟨ok,-,hp,rfl⟩ | ⟨m,sender,sender',rfl,hne,hp,hm,rfl⟩ | ⟨rfl,-,rfl⟩
  · rw [hp] at h
    exact h
  · rw [hp] at h
    cases ok <;> exact h
  · rw [hp] at h
    exact h
  · rw [hp] at h
    have heq : task.sent ++ (Sender.respond head body).script = .head head :: body.message := by
      rw [h]
      rfl
    exact ⟨head,body,hl head body rfl,heq ▸ List.prefix_rfl,fun _ => heq⟩
  · rw [hp] at h
    simp only [Framed,RequestTask.push,h,List.nil_append]
    cases ok
    · exact List.nil_prefix
    · exact List.prefix_rfl
  · rw [hp] at h
    obtain ⟨head,body,ha,hpre,heq⟩ := h
    obtain ⟨hstep,hwhole⟩ := step_script hm
    refine ⟨head,body,ha,?_,fun hcalm => ?_⟩
    · simp only [RequestTask.push,List.append_assoc]
      exact ((List.prefix_append_right_inj _).mpr hstep).trans hpre
    · have hord : m.orderly = true := by
        have hd := hc hcalm
        cases m with
        | failed e => cases hd
        | abort => exact (hne rfl).elim
        | _ => rfl
      simp only [RequestTask.push,List.append_assoc,hwhole hord]
      exact heq hcalm
  · exact RequestTask.Framed.drop h fun hcalm => Bool.false_ne_true (hc hcalm).symm

def RequestTask.Shown (task : RequestTask) : Prop := task.delivered <+: task.sent

theorem RequestTask.Shown.step (h : task.Shown) {l : RequestLabel} (hst : task.step l = some next) : next.Shown := by
  have hpush (frames : List SendOp) : (task.push frames).Shown := h.trans (List.prefix_append _ _)
  rcases RequestTask.step_cases hst with ⟨-,-,rfl⟩ | ⟨ok,-,-,rfl⟩ | ⟨-,-,rfl⟩ | ⟨head,body,-,-,rfl⟩ |
    ⟨ok,-,-,rfl⟩ | ⟨m,sender,sender',-,-,-,-,rfl⟩ | ⟨-,-,rfl⟩
  · exact h
  · exact h
  · exact h
  · exact h
  · exact hpush _
  · exact hpush _
  · exact h

variable {permits permits' : ℕ} {conn conn' : Conn} {R R' : ℕ → ResponseHead → Body → Prop} {C C' : ℕ → Prop}

def Disturbs (c r : ℕ) : Label → Prop
  | .conn d (.request q m) => d = c ∧ q = r ∧ m.disturbs = true
  | .timeout => True
  | _ => False

def Calm (ls : List Label) (c r : ℕ) : Prop := ∀ l ∈ ls, ¬ Disturbs c r l

variable {server : QuicServer} {s t : State}

end Server

end GrpcQuic
