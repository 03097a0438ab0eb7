import GrpcQuic.Core.SendLoopInv
import GrpcQuic.Transition.Reach

/-! # Every sending loop can come to its end

Wherever a task stands, it can send the frame in hand, the rest of its body and
the end of its stream. Only on a stream that is closed already a send has to fail.
-/
namespace GrpcQuic
open Transition
variable {σ : Type*} {L : SendLoop σ} {s t : Sender σ}

/-- A send fails only where the stream is closed already, and nobody aborts the task. -/
def Sender.Runs (s : Sender σ) : SendLabel → Prop
  | .failed _ => s.wire.closing ≠ none
  | .abort => False
  | _ => True

/-- The wire is open as long as the task has something to put on it, and only data
leave a rest to write. -/
def Sender.Open (s : Sender σ) : Prop :=
  match s.await with
  | .body | .send (.data _) _ => s.wire.closing = none
  | .send (.head _) stage => s.wire.closing = none ∧ ∀ rest, stage = .underway rest → rest = []
  | .send (.trailers _) stage =>
    (stage ≠ .flushed → s.wire.closing = none) ∧ ∀ rest, stage = .underway rest → rest = []
  | .send .finish stage => ∀ rest, stage ≠ .underway rest
  | .left => True

theorem leave_open (s : Sender σ) : (s.leave L).Open := trivial

theorem exit_open (s : Sender σ) (r : Exit × σ) : (s.exit L r).Open := by
  obtain ⟨e,loop⟩ := r
  cases e with
  | finish =>
    intro rest hr
    cases hr
  | leave => exact leave_open _

theorem step_open (h : s.Open) {l : SendLabel} (hst : s.step L l = some t) : t.Open := by
  unfold Sender.Open at h
  rcases step_cases hst with ⟨rfl,ha,rfl⟩ | ⟨rfl,op,hop,ha,rfl⟩ | ⟨n,d,rest,rfl,ha,rfl⟩ |
    ⟨rfl,hc,op,stage,ha,-,rfl⟩ | ⟨rfl,op,ha,rfl⟩ | ⟨m,op,stage,rfl,ha,-,rfl⟩ | ⟨rfl,⟨ha,rfl⟩ | rfl⟩
  · rw [ha] at h
    unfold Sender.onFrame
    split
    · exact h
    · exact ⟨fun _ => h,fun rest hr => by cases hr⟩
    · exact exit_open _ _
    · exact exit_open _ _
  · rw [ha] at h
    cases op with
    | head hd => exact ⟨h.1,fun rest hr => by cases hr; rfl⟩
    | data d => exact h
    | trailers tr => exact ⟨fun _ => h.1 (by simp),fun rest hr => by cases hr; rfl⟩
    | finish => exact (hop rfl).elim
  · rw [ha] at h
    exact h
  · cases op with
    | head hd => exact ⟨hc,fun rest hr => by cases hr⟩
    | data d => exact hc
    | trailers tr => exact ⟨fun hne => (hne rfl).elim,fun rest hr => by cases hr⟩
    | finish =>
      intro rest hr
      cases hr
  · rw [ha] at h
    cases op with
    | head hd => exact h.1
    | data d => exact h
    | trailers tr => exact leave_open _
    | finish => exact leave_open _
  · cases op with
    | head hd => exact leave_open _
    | data d => exact exit_open _ _
    | trailers tr => exact leave_open _
    | finish => exact leave_open _
  · unfold Sender.Open
    rw [ha]
    trivial
  · exact leave_open s

def Sender.Ends (L : SendLoop σ) (s : Sender σ) : Prop :=
  CanMeet (Sender.step L) Sender.Runs (fun t => t.await = .left) s

theorem finish_ends (ha : s.await = .send .finish .queued) : s.Ends L := by
  cases hc : s.wire.closing with
  | none =>
    have hflush : s.step L .flush = some { s with await := .send .finish .flushed, wire := s.wire.flush .finish } := by
      simp only [Sender.step,ha,hc]
    exact .next .flush trivial hflush (.next .sent trivial rfl (.now rfl))
  | some c =>
    have hfail : s.step L (.failed "") = some ({ s with wire := s.wire.break }.onFailed L "" .finish) := by
      simp only [Sender.step,ha]
    have hruns : s.Runs (.failed "") := by
      simp [Sender.Runs,hc]
    exact .next (.failed "") hruns hfail (.now rfl)

theorem exit_ends (s : Sender σ) (r : Exit × σ) : (s.exit L r).Ends L := by
  obtain ⟨e,loop⟩ := r
  cases e with
  | finish => exact finish_ends rfl
  | leave => exact .now rfl

def Sender.Passes (L : SendLoop σ) (s : Sender σ) (op : SendOp) (t : Sender σ) : Prop :=
  ∃ u : Sender σ, u.body = s.body ∧ u.wire.closing = (s.wire.flush op).closing ∧ t = u.onSent L op

theorem frame_sent {op : SendOp} {stage : Stage} (ha : s.await = .send op stage) (hop : op ≠ .finish)
    (hs : stage ≠ .flushed) (hc : s.wire.closing = none) (h : s.Open) :
    CanMeet (Sender.step L) Sender.Runs (s.Passes L op) s := by
  have hflush {u : Sender σ} (hu : u.await = .send op (.underway [])) (hb : u.body = s.body)
      (hw : u.wire.closing = none) : CanMeet (Sender.step L) Sender.Runs (s.Passes L op) u := by
    have hst : u.step L .flush = some { u with await := .send op .flushed, wire := u.wire.flush op } := by
      cases op <;> simp only [Sender.step,hu,hw]
    refine .next .flush trivial hst (.next .sent trivial rfl (.now
      ⟨{ u with await := .send op .flushed, wire := u.wire.flush op },hb,?_,rfl⟩))
    cases op with
    | head hd => exact hw.trans hc.symm
    | data d => exact hw.trans hc.symm
    | trailers tr => rfl
    | finish => rfl
  have hunderway {u : Sender σ} {rest : Bytes} (hu : u.await = .send op (.underway rest)) (hb : u.body = s.body)
      (hw : u.wire.closing = none) (hr : (∃ d, op = .data d) ∨ rest = []) :
      CanMeet (Sender.step L) Sender.Runs (s.Passes L op) u := by
    rcases hr with ⟨d,rfl⟩ | rfl
    · have hst : u.step L (.write rest.length) = some { u with
          await := .send (.data d) (.underway [])
          wire := { u.wire with tape := u.wire.tape.append (rest.map some) } } := by
        simp only [Sender.step,hu,List.drop_length,List.take_length]
      exact .next (.write rest.length) trivial hst (hflush rfl hb hw)
    · exact hflush hu hb hw
  unfold Sender.Open at h
  rw [ha] at h
  have hempty {rest : Bytes} (hstage : stage = .underway rest) : (∃ d, op = .data d) ∨ rest = [] := by
    cases op with
    | head hd => exact .inr (h.2 rest hstage)
    | data d => exact .inl ⟨d,rfl⟩
    | trailers tr => exact .inr (h.2 rest hstage)
    | finish => exact (hop rfl).elim
  cases stage with
  | queued =>
    have hst : s.step L .begin = some { s with await := .send op (.underway op.payload) } := by
      cases op with
      | finish => exact (hop rfl).elim
      | _ => simp only [Sender.step,ha]
    refine .next .begin trivial hst (hunderway rfl rfl hc ?_)
    cases op with
    | data d => exact .inl ⟨d,rfl⟩
    | _ => exact .inr rfl
  | underway rest => exact hunderway ha rfl hc (hempty rfl)
  | flushed => exact (hs rfl).elim

theorem trailers_end {tr : HeaderMap} {stage : Stage} (ha : s.await = .send (.trailers tr) stage) (h : s.Open) :
    s.Ends L := by
  by_cases hs : stage = .flushed
  · subst hs
    have hst : s.step L .sent = some (s.leave L) := by simp only [Sender.step,ha,Sender.onSent]
    exact .next .sent trivial hst (.now rfl)
  · have hc : s.wire.closing = none := by
      have hopen := h
      unfold Sender.Open at hopen
      rw [ha] at hopen
      exact hopen.1 hs
    refine (frame_sent ha (by simp) hs hc h).mono ?_
    rintro t ⟨u,-,-,rfl⟩
    rfl

theorem next_ne_data {body : Body} (hf : body.frames = []) (d : Bytes) :
    body.next.1 ≠ some (.ok (.data d)) := by
  unfold Body.next
  rw [hf]
  cases body.ended
  · cases he : body.ending <;> simp [Ending.result]
  · simp

/-- At the top of its loop a task can send its body to the end. -/
theorem body_ends (ha : s.await = .body) (hc : s.wire.closing = none) : s.Ends L := by
  induction hf : s.body.frames generalizing s with
  | nil =>
    have hpoll : s.step L .poll = some ({ s with body := s.body.next.2 }.onFrame L s.body.next.1) := by
      simp only [Sender.step,ha]
    refine .next .poll trivial hpoll ?_
    cases hn : s.body.next.1 with
    | none => exact exit_ends _ _
    | some r =>
      cases r with
      | error e => exact exit_ends _ _
      | ok frame =>
        cases frame with
        | trailers tr => exact trailers_end rfl ⟨fun _ => hc,fun rest hr => by cases hr⟩
        | data d => exact (next_ne_data hf d hn).elim
  | cons d rest ih =>
    obtain ⟨u,hpoll,hu,hb,hw⟩ : ∃ u, s.step L .poll = some u ∧ u.await = .send (.data d) .queued ∧
        u.body.frames = rest ∧ u.wire.closing = none := by
      refine ⟨{ s with body := s.body.next.2 }.onFrame L s.body.next.1,by simp only [Sender.step,ha],?_⟩
      rw [Body.next_of_cons hf]
      exact ⟨rfl,rfl,hc⟩
    have hopen : u.Open := by
      unfold Sender.Open
      rw [hu]
      exact hw
    refine .next .poll trivial hpoll ((frame_sent hu (by simp) (by simp) hw hopen).trans ?_)
    rintro t ⟨v,hvb,hvw,rfl⟩
    exact ih rfl (hvw.trans hw) ((congrArg Body.frames hvb).trans hb)

theorem sender_ends (h : s.Open) : s.Ends L := by
  have hopen := h
  unfold Sender.Open at hopen
  cases ha : s.await with
  | left => exact .now ha
  | body =>
    rw [ha] at hopen
    exact body_ends ha hopen
  | send op stage =>
    rw [ha] at hopen
    by_cases hs : stage = .flushed
    · subst hs
      have hst : s.step L .sent = some (s.onSent L op) := by simp only [Sender.step,ha]
      refine .next .sent trivial hst ?_
      cases op with
      | head hd => exact body_ends rfl hopen.1
      | data d => exact body_ends rfl hopen
      | trailers tr => exact .now rfl
      | finish => exact .now rfl
    · cases op with
      | head hd =>
        refine (frame_sent ha (by simp) hs hopen.1 h).trans ?_
        rintro t ⟨u,-,hw,rfl⟩
        exact body_ends rfl (hw.trans hopen.1)
      | data d =>
        refine (frame_sent ha (by simp) hs hopen h).trans ?_
        rintro t ⟨u,-,hw,rfl⟩
        exact body_ends rfl (hw.trans hopen)
      | trailers tr => exact trailers_end ha h
      | finish =>
        cases stage with
        | queued => exact finish_ends ha
        | underway rest => exact (hopen rest rfl).elim
        | flushed => exact (hs rfl).elim

end GrpcQuic
