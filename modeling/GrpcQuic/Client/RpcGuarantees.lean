import GrpcQuic.Client.Rpc
import GrpcQuic.Core.SendLoopInv

/-! # Who cancels the forwarder, and what it may spoil

The handle of the forwarder changes hands once, from the call future to the
response body. The future lets go of it without an abort when it is dropped, and
the body asks for the forwarder's error before it asks for the response.
-/
namespace GrpcQuic.Rpc
open Transition
variable {req : Request} {s t : State}

/-- The events of a call at which its stream halves change hands. -/
theorem call_step_cases {cfg : Call.Config} {c c' : Call.State} {e : Call.Event}
    (h : Call.step cfg c e = some c') :
    (∃ entry, e = .sent (.ok ()) ∧ c.phase = .sending entry ∧ c'.phase = .awaitingResponse) ∨
    (∃ r res, e = .responded r ∧ c.phase = .awaitingResponse ∧ c'.phase = .done res) ∨
    ((∀ r, e ≠ .responded r) ∧ e ≠ .sent (.ok ()) ∧ c.phase ≠ .awaitingResponse ∧
      (∀ r, c.phase ≠ .done r) ∧ c'.phase ≠ .awaitingResponse) := by
  have hnext := Call.step_phase h
  generalize c.phase = p at hnext ⊢
  generalize c'.phase = p' at hnext ⊢
  cases hnext with
  | admitted p' hp =>
    exact .inr (.inr ⟨nofun,nofun,nofun,nofun,hp.ne_of nofun nofun nofun⟩)
  | invalidated p' hp =>
    exact .inr (.inr ⟨nofun,nofun,nofun,nofun,hp.ne_of nofun nofun nofun⟩)
  | sent entry => exact .inl ⟨entry,rfl,rfl,rfl⟩
  | responded head => exact .inr (.inl ⟨_,_,rfl,rfl,rfl⟩)
  | recvFailed m => exact .inr (.inl ⟨_,_,rfl,rfl,rfl⟩)
  | _ => exact .inr (.inr ⟨nofun,nofun,nofun,nofun,nofun⟩)

structure OwnerInv (s : State) : Prop where
  spawned : s.running = true → s.call.phase = .awaitingResponse ∨ ∃ r, s.call.phase = .done r
  undone : s.dropped = true → ∀ r, s.call.phase ≠ .done r
  early : (∀ r, s.call.phase ≠ .done r) → s.body = .absent
  held : s.call.phase = .awaitingResponse → s.dropped = false → s.half ≠ none
  failed : (∃ r, s.call.phase = .done r) → s.body = .absent → s.running = false
  armed : ∀ b, s.body = .present b → if b.isClosed then s.running = false else b.abortHandle = true
  gone : s.body = .dropped → s.running = false

theorem ownerInv_init : OwnerInv State.init :=
  ⟨nofun,nofun,fun _ => rfl,nofun,nofun,nofun,nofun⟩

theorem abortForwarder_running (s : State) : s.abortForwarder.running = false := by
  unfold State.running State.abortForwarder
  cases s.forwarder with
  | none => rfl
  | some f => simp only [Option.map_some,abort_await,ne_eq,not_true_eq_false,decide_false]

theorem forward_running {f f' : Sender Forwarder} {l : SendLabel} (hl : l ≠ .abort)
    (h : f.step forwarderLoop l = some f') : f.await ≠ .left := by
  intro ha
  rcases step_cases h with ⟨-,hb,-⟩ | ⟨-,op,-,hb,-⟩ | ⟨n,d,rest,-,hb,-⟩ | ⟨-,-,op,stage,hb,-⟩ |
    ⟨-,op,hb,-⟩ | ⟨m,op,stage,-,hb,-⟩ | ⟨hb,-⟩
  all_goals first | exact hl hb | (rw [ha] at hb; cases hb)

theorem running_iff (s : State) : s.running = true ↔ ∃ f, s.forwarder = some f ∧ f.await ≠ .left := by
  unfold State.running
  cases s.forwarder with
  | none => simp
  | some f => simp

/-- The three kinds of steps a call takes, as they show in the whole state. -/
theorem onEvent_cases {e : Call.Event} {cs : Call.State} (h : OwnerInv s) (hd : s.dropped = false)
    (hst : Call.step req.call s.call e = some cs) :
    (cs.phase = .awaitingResponse ∧ s.body = .absent ∧ (s.goOn req cs).onEvent req e =
      { s with
        call := cs
        wakeAt := s.wakeAfter req cs
        forwarder := some (.forward req.body)
        half := some .new
        arrived := []
        arrivedEnd := none }) ∨
    (∃ res half, cs.phase = .done res ∧ s.body = .absent ∧ s.half = some half ∧
      ((s.goOn req cs).onEvent req e =
        { s with
          call := cs
          wakeAt := s.wakeAfter req cs
          half := none
          body := .present (.new half true true req.deadline) } ∨
       (s.goOn req cs).onEvent req e =
        { s with call := cs, wakeAt := s.wakeAfter req cs, half := none }.abortForwarder)) ∨
    (cs.phase ≠ .awaitingResponse ∧ s.body = .absent ∧ s.running = false ∧
      (s.goOn req cs).onEvent req e = { s with call := cs, wakeAt := s.wakeAfter req cs }) := by
  rcases call_step_cases hst with ⟨entry,rfl,hp,hp'⟩ | ⟨r,res,rfl,hp,hp'⟩ | ⟨hr,hs,hp,hp',hp''⟩
  · exact .inl ⟨hp',h.early (by rw [hp]; exact nofun),rfl⟩
  · obtain ⟨half,hhalf⟩ := Option.ne_none_iff_exists'.mp (h.held hp hd)
    refine .inr (.inl ⟨res,half,hp',h.early (by rw [hp]; exact nofun),hhalf,?_⟩)
    cases r with
    | ok head => exact .inl (by simp only [State.onEvent,State.goOn,hhalf])
    | error m => exact .inr rfl
  · refine .inr (.inr ⟨hp'',h.early hp',?_,?_⟩)
    · refine Bool.eq_false_iff.mpr fun hrun => ?_
      rcases h.spawned hrun with ha | ⟨r,ha⟩
      · exact hp ha
      · exact hp' r ha
    · cases e with
      | sent r =>
        cases r with
        | ok _ => exact (hs rfl).elim
        | error _ => rfl
      | responded r => exact (hr r rfl).elim
      | acquired _ => rfl
      | woke => rfl
      | pooled _ => rfl
      | built _ => rfl
      | invalidated => rfl

theorem step_cases {l : Label} (hst : step req s l = some t) :
    (∃ e cs, l = .call e ∧ s.dropped = false ∧ Call.step req.call s.call e = some cs ∧
      t = (s.goOn req cs).onEvent req e) ∨
    ((l = .timeout ∨ l = .dropCall) ∧ s.pending = true ∧ t = s.dropCall) ∨
    (∃ m f f', l = .forward m ∧ m ≠ .abort ∧ s.forwarder = some f ∧ f.step forwarderLoop m = some f' ∧
      t = { s with forwarder := some f' }) ∨
    (∃ d u, l = .arrive d ∧ s.mapHalf (fun half => { half with chunks := half.chunks ++ [d] }) = some u ∧
      t = { u with arrived := s.arrived ++ [d] }) ∨
    (∃ e u, l = .arriveEnd e ∧ s.mapHalf (fun half => { half with ending := some e }) = some u ∧
      t = { u with arrivedEnd := some e }) ∨
    (∃ n, l = .tick n ∧ t = { s with now := s.now + n }) ∨
    (∃ b, l = .poll ∧ s.body = .present b ∧ t = { s.abortIf (b.pollAborts s.now) with
      body := .present (b.pollFrame s.now s.err).2
      yielded := s.yielded ++ (b.pollFrame s.now s.err).1.toList }) ∨
    (∃ b, l = .dropBody ∧ s.body = .present b ∧ t = { s.abortIf b.dropAborts with body := .dropped }) := by
  cases l with
  | call e =>
    simp only [step] at hst
    split at hst
    · cases hst
    · rename_i hd
      obtain ⟨cs,hcs,rfl⟩ := Option.map_eq_some_iff.mp hst
      exact .inl ⟨e,cs,rfl,(Bool.or_eq_false_iff.mp (Bool.eq_false_iff.mpr hd)).1,hcs,rfl⟩
  | timeout =>
    simp only [step] at hst
    split at hst
    · split at hst
      · rename_i hp
        cases hst
        exact .inr (.inl ⟨.inl rfl,(Bool.and_eq_true_iff.mp hp).1,rfl⟩)
      · cases hst
    · cases hst
  | dropCall =>
    simp only [step] at hst
    split at hst
    · rename_i hp
      cases hst
      exact .inr (.inl ⟨.inr rfl,hp,rfl⟩)
    · cases hst
  | forward m =>
    simp only [step] at hst
    split at hst
    · cases hst
    · rename_i f hf hm
      obtain ⟨f',hf',rfl⟩ := Option.map_eq_some_iff.mp hst
      exact .inr (.inr (.inl ⟨_,f,f',rfl,fun hm' => hm hm',hf,hf',rfl⟩))
    · cases hst
  | arrive d =>
    obtain ⟨u,hu,rfl⟩ := Option.map_eq_some_iff.mp hst
    exact .inr (.inr (.inr (.inl ⟨d,u,rfl,hu,rfl⟩)))
  | arriveEnd e =>
    obtain ⟨u,hu,rfl⟩ := Option.map_eq_some_iff.mp hst
    exact .inr (.inr (.inr (.inr (.inl ⟨e,u,rfl,hu,rfl⟩))))
  | tick n =>
    cases hst
    exact .inr (.inr (.inr (.inr (.inr (.inl ⟨n,rfl,rfl⟩)))))
  | poll =>
    simp only [step] at hst
    split at hst
    · rename_i b hb
      cases hst
      exact .inr (.inr (.inr (.inr (.inr (.inr (.inl ⟨b,rfl,hb,rfl⟩))))))
    · cases hst
  | dropBody =>
    simp only [step] at hst
    split at hst
    · rename_i b hb
      cases hst
      exact .inr (.inr (.inr (.inr (.inr (.inr (.inr ⟨b,rfl,hb,rfl⟩))))))
    · cases hst

/-- Before there is a response body only the call future can hold the handle. -/
theorem OwnerInv.of_absent (hb : s.body = .absent)
    (hspawned : s.running = true → s.call.phase = .awaitingResponse ∨ ∃ r, s.call.phase = .done r)
    (hundone : s.dropped = true → ∀ r, s.call.phase ≠ .done r)
    (hheld : s.call.phase = .awaitingResponse → s.dropped = false → s.half ≠ none)
    (hfailed : (∃ r, s.call.phase = .done r) → s.running = false) : OwnerInv s := by
  refine ⟨hspawned,hundone,fun _ => hb,hheld,fun hr _ => hfailed hr,?_,?_⟩
  · intro b hb'
    rw [hb] at hb'
    cases hb'
  · intro hb'
    rw [hb] at hb'
    cases hb'

theorem OwnerInv.call (h : OwnerInv s) {e : Call.Event} {cs : Call.State} (hd : s.dropped = false)
    (hcs : Call.step req.call s.call e = some cs) : OwnerInv ((s.goOn req cs).onEvent req e) := by
  have hnd {p : Prop} (hdt : s.dropped = true) : p := (Bool.false_ne_true (hd.symm.trans hdt)).elim
  rcases onEvent_cases h hd hcs with
    ⟨hp,hb,ht⟩ | ⟨res,half,hp,hb,-,ht | ht⟩ | ⟨hp,hb,hr,ht⟩
  · rw [ht]
    refine .of_absent hb (fun _ => .inl hp) (fun hdt => hnd hdt) (fun _ _ => nofun) ?_
    rintro ⟨r,hr⟩
    rw [hp] at hr
    cases hr
  · rw [ht]
    refine ⟨fun _ => .inr ⟨res,hp⟩,fun hdt => hnd hdt,fun hno => (hno res hp).elim,?_,nofun,?_,nofun⟩
    · exact fun ha => nomatch hp.symm.trans ha
    · intro b hb'
      cases hb'
      rfl
  · rw [ht]
    refine .of_absent hb (fun _ => .inr ⟨res,hp⟩) (fun hdt => hnd hdt) ?_
      fun _ => abortForwarder_running _
    exact fun ha => nomatch hp.symm.trans ha
  · rw [ht]
    exact .of_absent hb (fun hrun => (Bool.false_ne_true (hr.symm.trans hrun)).elim)
      (fun hdt => hnd hdt) (fun ha => (hp ha).elim) fun _ => hr

theorem pending_iff (s : State) : s.pending = true ↔ s.dropped = false ∧ ∀ r, s.call.phase ≠ .done r := by
  unfold State.pending
  cases s.dropped <;> cases s.call.phase <;> simp

theorem OwnerInv.drop (h : OwnerInv s) (hp : s.pending = true) : OwnerInv s.dropCall := by
  obtain ⟨-,hnd⟩ := (pending_iff s).mp hp
  exact .of_absent (h.early hnd) h.spawned (fun _ => hnd) nofun fun ⟨r,hr⟩ => (hnd r hr).elim

/-- Steps that leave the call alone and do not set the forwarder running. -/
theorem OwnerInv.setBody (h : OwnerInv s) (hcall : t.call = s.call) (hdropped : t.dropped = s.dropped)
    (hrun : t.running = true → s.running = true) (hhalf : s.half ≠ none → t.half ≠ none)
    (habs : s.body = .absent ↔ t.body = .absent)
    (harmed : ∀ b, t.body = .present b → if b.isClosed then t.running = false else b.abortHandle = true)
    (hgone : t.body = .dropped → t.running = false) : OwnerInv t := by
  refine ⟨?_,?_,?_,?_,?_,harmed,hgone⟩
  · rw [hcall]; exact fun hr => h.spawned (hrun hr)
  · rw [hcall,hdropped]; exact h.undone
  · rw [hcall]; exact fun hnd => habs.mp (h.early hnd)
  · rw [hcall,hdropped]; exact fun ha hd => hhalf (h.held ha hd)
  · rw [hcall]
    intro hr hb
    refine Bool.eq_false_iff.mpr fun ht => ?_
    exact Bool.false_ne_true ((h.failed hr (habs.mpr hb)).symm.trans (hrun ht))

theorem mapHalf_cases {f : RecvHalf → RecvHalf} (hst : s.mapHalf f = some t) :
    (∃ half, s.half = some half ∧ half.ending = none ∧ t = { s with half := some (f half) }) ∨
    (∃ b, s.half = none ∧ s.body = .present b ∧ b.stream.ending = none ∧
      t = { s with body := .present { b with stream := f b.stream } }) := by
  unfold State.mapHalf at hst
  split at hst
  · rename_i half hh
    split at hst
    · rename_i he
      cases hst
      exact .inl ⟨half,hh,Option.isNone_iff_eq_none.mp he,rfl⟩
    · cases hst
  · rename_i b hh hb
    split at hst
    · rename_i he
      cases hst
      exact .inr ⟨b,hh,hb,Option.isNone_iff_eq_none.mp he,rfl⟩
    · cases hst
  · cases hst

/-! The clock moves by itself alone, and a sleep ends only when it has come so far. -/

theorem call_step_clock {e : Call.Event} (hst : step req s (.call e) = some t) :
    t.now = s.now ∧ t.wakeAt = s.wakeAfter req t.call ∧ Call.step req.call s.call e = some t.call := by
  rcases step_cases hst with ⟨e',cs,he,-,hcs,rfl⟩ | ⟨he | he,-⟩ | ⟨m,f,f',he,-⟩ | ⟨d,u,he,-⟩ | ⟨e',u,he,-⟩ |
    ⟨n,he,-⟩ | ⟨b,he,-⟩ | ⟨b,he,-⟩
  · cases he
    have hframe : ((s.goOn req cs).onEvent req e).now = s.now ∧
        ((s.goOn req cs).onEvent req e).wakeAt = s.wakeAfter req cs ∧
        ((s.goOn req cs).onEvent req e).call = cs := by
      unfold State.onEvent
      split
      · exact ⟨rfl,rfl,rfl⟩
      · split <;> exact ⟨rfl,rfl,rfl⟩
      · exact ⟨rfl,rfl,rfl⟩
      · exact ⟨rfl,rfl,rfl⟩
    obtain ⟨hnow,hwake,hcall⟩ := hframe
    rw [hcall]
    exact ⟨hnow,hwake,hcs⟩
  all_goals cases he

theorem step_still {l : Label} (hl : ∀ e, l ≠ .call e) (ht : ∀ n, l ≠ .tick n) (hst : step req s l = some t) :
    t.call = s.call ∧ t.now = s.now ∧ t.wakeAt = s.wakeAt := by
  rcases step_cases hst with ⟨e,cs,he,-⟩ | ⟨-,-,rfl⟩ | ⟨m,f,f',-,-,-,-,rfl⟩ | ⟨d,u,-,hu,rfl⟩ | ⟨e,u,-,hu,rfl⟩ |
    ⟨n,he,-⟩ | ⟨b,-,-,rfl⟩ | ⟨b,-,-,rfl⟩
  · exact (hl e he).elim
  · exact ⟨rfl,rfl,rfl⟩
  · exact ⟨rfl,rfl,rfl⟩
  · rcases mapHalf_cases hu with ⟨half,-,-,rfl⟩ | ⟨b,-,-,-,rfl⟩ <;> exact ⟨rfl,rfl,rfl⟩
  · rcases mapHalf_cases hu with ⟨half,-,-,rfl⟩ | ⟨b,-,-,-,rfl⟩ <;> exact ⟨rfl,rfl,rfl⟩
  · exact (ht n he).elim
  · cases b.pollAborts s.now <;> exact ⟨rfl,rfl,rfl⟩
  · cases b.dropAborts <;> exact ⟨rfl,rfl,rfl⟩

theorem step_now {l : Label} (ht : ∀ n, l ≠ .tick n) (hst : step req s l = some t) : t.now = s.now := by
  by_cases hl : ∃ e, l = .call e
  · obtain ⟨e,rfl⟩ := hl
    exact (call_step_clock hst).1
  · exact (step_still (fun e he => hl ⟨e,he⟩) ht hst).2.1

theorem OwnerInv.mapHalf (h : OwnerInv s) {f : RecvHalf → RecvHalf} (hst : s.mapHalf f = some t) :
    OwnerInv t := by
  rcases mapHalf_cases hst with ⟨half,hh,-,rfl⟩ | ⟨b,hh,hb,-,rfl⟩
  · exact h.setBody rfl rfl (fun hr => hr) (fun _ => nofun) Iff.rfl h.armed h.gone
  · refine h.setBody rfl rfl (fun hr => hr) (fun hh => hh) (by rw [hb]; exact ⟨nofun,nofun⟩) ?_ nofun
    intro b' hb'
    cases hb'
    exact h.armed b hb

theorem abortIf_call (s : State) (b : Bool) : (s.abortIf b).call = s.call := by cases b <;> rfl

theorem abortIf_dropped (s : State) (b : Bool) : (s.abortIf b).dropped = s.dropped := by cases b <;> rfl

theorem abortIf_half (s : State) (b : Bool) (h : s.half ≠ none) : (s.abortIf b).half ≠ none := by
  cases b <;> exact h

theorem abortIf_running (s : State) (b : Bool) (h : (s.abortIf b).running = true) : s.running = true := by
  cases b with
  | false => exact h
  | true => exact (Bool.false_ne_true ((abortForwarder_running s).symm.trans h)).elim

/-- A poll that closes the body aborts the forwarder. -/
theorem poll_armed {b : ClientRecvBody RecvHalf}
    (h : if b.isClosed then s.running = false else b.abortHandle = true) :
    if (b.pollFrame s.now s.err).2.isClosed then (s.abortIf (b.pollAborts s.now)).running = false
      else (b.pollFrame s.now s.err).2.abortHandle = true := by
  rcases b.pollFrame_cases s.now s.err with ⟨hc,hp⟩ | ⟨hc,he,r,hp,-⟩ | ⟨hc,he,-,e,-,hp⟩ | ⟨hc,he,-,rx,-,hp⟩
  · rw [hp,hc]
    rw [hc] at h
    exact Bool.eq_false_iff.mpr fun hr => Bool.false_ne_true (h.symm.trans (abortIf_running s _ hr))
  · rw [hc] at h
    have hab : b.pollAborts s.now = true := by
      unfold ClientRecvBody.pollAborts
      rw [hc,he,show b.abortHandle = true from h]
      rfl
    rw [hp,hab]
    exact abortForwarder_running s
  · rw [hc] at h
    rw [hp]
    simp only [hc]
    exact h
  · rw [hc] at h
    rw [hp]
    simp only [hc]
    exact h

theorem step_ownerInv (h : OwnerInv s) {l : Label} (hst : step req s l = some t) : OwnerInv t := by
  rcases step_cases hst with ⟨e,cs,-,hd,hcs,rfl⟩ | ⟨-,hp,rfl⟩ | ⟨m,f,f',-,hm,hf,hf',rfl⟩ |
    ⟨d,u,-,hu,rfl⟩ | ⟨e,u,-,hu,rfl⟩ | ⟨n,-,rfl⟩ | ⟨b,-,hb,rfl⟩ | ⟨b,-,hb,rfl⟩
  · exact h.call hd hcs
  · exact h.drop hp
  · have hrun : s.running = true := (running_iff s).mpr ⟨f,hf,forward_running hm hf'⟩
    refine h.setBody rfl rfl (fun _ => hrun) (fun hh => hh) Iff.rfl ?_ fun hb => ?_
    · intro b hb
      have ha := h.armed b hb
      split at ha
      · exact (Bool.false_ne_true (ha.symm.trans hrun)).elim
      · rename_i hc
        rw [if_neg hc]
        exact ha
    · exact (Bool.false_ne_true ((h.gone hb).symm.trans hrun)).elim
  · have hinv := h.mapHalf hu
    exact ⟨hinv.1,hinv.2,hinv.3,hinv.4,hinv.5,hinv.6,hinv.7⟩
  · have hinv := h.mapHalf hu
    exact ⟨hinv.1,hinv.2,hinv.3,hinv.4,hinv.5,hinv.6,hinv.7⟩
  · exact ⟨h.1,h.2,h.3,h.4,h.5,h.6,h.7⟩
  · have ha := h.armed b hb
    refine h.setBody (abortIf_call ..) (abortIf_dropped ..) (abortIf_running s _) (abortIf_half s _)
      (by rw [hb]; exact ⟨nofun,nofun⟩) ?_ nofun
    intro b' hb'
    cases hb'
    exact poll_armed ha
  · have ha := h.armed b hb
    refine h.setBody (abortIf_call ..) (abortIf_dropped ..) (abortIf_running s _) (abortIf_half s _)
      (by rw [hb]; exact ⟨nofun,nofun⟩) nofun fun _ => ?_
    cases hc : b.isClosed with
    | true =>
      rw [hc] at ha
      exact Bool.eq_false_iff.mpr fun hr => Bool.false_ne_true (ha.symm.trans (abortIf_running s _ hr))
    | false =>
      rw [hc] at ha
      have hd : b.dropAborts = true := ha
      rw [hd]
      exact abortForwarder_running s

/-- With the handle where it belongs only a dropped call can leave an orphan. -/
theorem OwnerInv.noOrphan_iff (h : OwnerInv s) :
    NoOrphan s ↔ (s.dropped = true → s.running = false) := by
  constructor
  · intro hno hd
    refine Bool.eq_false_iff.mpr fun hr => hno ⟨?_,?_,hr⟩
    · simp only [State.ended,State.pending,hd,Bool.not_true,Bool.false_and,Bool.not_false]
    · simp only [State.bodyGone,h.early (h.undone hd)]
  · rintro hd ⟨he,hg,hr⟩
    have hrun {p : Prop} (hf : s.running = false) : p := (Bool.false_ne_true (hf.symm.trans hr)).elim
    cases hb : s.body with
    | dropped => exact hrun (h.gone hb)
    | present b =>
      have ha := h.armed b hb
      have hc : b.isClosed = true := by
        unfold State.bodyGone at hg
        rw [hb] at hg
        exact hg
      rw [hc] at ha
      exact hrun ha
    | absent =>
      cases hdr : s.dropped with
      | true => exact hrun (hd hdr)
      | false =>
        by_cases hdone : ∃ r, s.call.phase = .done r
        · exact hrun (h.failed hdone hb)
        · have hp : s.pending = true := (pending_iff s).mpr ⟨hdr,fun r hr' => hdone ⟨r,hr'⟩⟩
          simp only [State.ended,hp,Bool.not_true,Bool.false_eq_true] at he

theorem drop_noOrphan (h : OwnerInv s) (hp : s.pending = true) {l : Label}
    (hl : l = .timeout ∨ l = .dropCall) : NoOrphan s.dropCall ↔ NotDroppedAwaiting s l := by
  obtain ⟨-,hnd⟩ := (pending_iff s).mp hp
  rw [(h.drop hp).noOrphan_iff]
  constructor
  · exact fun hno _ _ => hno rfl
  · intro hC _
    refine Bool.eq_false_iff.mpr fun hr => ?_
    rcases h.spawned hr with ha | ⟨r,hr'⟩
    · exact Bool.false_ne_true ((hC hl ha).symm.trans hr)
    · exact hnd r hr'

/-- A step keeps the forwarder from being orphaned exactly when it does not drop
the call while the forwarder's handle is in it. -/
theorem step_noOrphan (h : OwnerInv s) (hP : NoOrphan s) {l : Label} (hst : step req s l = some t) :
    NoOrphan t ↔ NotDroppedAwaiting s l := by
  have ht := step_ownerInv h hst
  have hkeep (hl : l ≠ .timeout ∧ l ≠ .dropCall) (hd : t.dropped = s.dropped)
      (hr : t.running = true → s.dropped = true → s.running = true) :
      NoOrphan t ↔ NotDroppedAwaiting s l := by
    refine ⟨fun _ hdrop => ?_,fun _ => ?_⟩
    · rcases hdrop with hd' | hd'
      · exact (hl.1 hd').elim
      · exact (hl.2 hd').elim
    · rw [ht.noOrphan_iff,hd]
      intro hds
      refine Bool.eq_false_iff.mpr fun hrt => ?_
      exact Bool.false_ne_true ((h.noOrphan_iff.mp hP hds).symm.trans (hr hrt hds))
  have hhalf {f : RecvHalf → RecvHalf} {u : State} (hu : s.mapHalf f = some u) :
      u.dropped = s.dropped ∧ u.forwarder = s.forwarder := by
    rcases mapHalf_cases hu with ⟨half,-,-,rfl⟩ | ⟨b,-,-,-,rfl⟩ <;> exact ⟨rfl,rfl⟩
  have hrunning {u : State} (hu : u.forwarder = s.forwarder) : u.running = s.running := by
    unfold State.running
    rw [hu]
  rcases step_cases hst with ⟨e,cs,rfl,hd,hcs,rfl⟩ | ⟨hl,hp,rfl⟩ | ⟨m,f,f',rfl,hm,hf,hf',rfl⟩ |
    ⟨d,u,rfl,hu,rfl⟩ | ⟨e,u,rfl,hu,rfl⟩ | ⟨n,rfl,rfl⟩ | ⟨b,rfl,hb,rfl⟩ | ⟨b,rfl,hb,rfl⟩
  · refine hkeep ⟨nofun,nofun⟩ ?_ fun _ hds => (Bool.false_ne_true (hd.symm.trans hds)).elim
    rcases onEvent_cases h hd hcs with
      ⟨-,-,he⟩ | ⟨res,half,-,-,-,he | he⟩ | ⟨-,-,-,he⟩ <;> rw [he]
    rfl
  · exact drop_noOrphan h hp hl
  · refine hkeep ⟨nofun,nofun⟩ rfl fun _ _ => ?_
    exact (running_iff s).mpr ⟨f,hf,forward_running hm hf'⟩
  · exact hkeep ⟨nofun,nofun⟩ (hhalf hu).1 fun hr _ => (hrunning (hhalf hu).2) ▸ hr
  · exact hkeep ⟨nofun,nofun⟩ (hhalf hu).1 fun hr _ => (hrunning (hhalf hu).2) ▸ hr
  · exact hkeep ⟨nofun,nofun⟩ rfl fun hr _ => hr
  · exact hkeep ⟨nofun,nofun⟩ (abortIf_dropped ..) fun hr _ => abortIf_running s _ hr
  · exact hkeep ⟨nofun,nofun⟩ (abortIf_dropped ..) fun hr _ => abortIf_running s _ hr

/-- In every run of a call no forwarder is orphaned if and only if the call
future is never dropped, by its caller or by its deadline, while it waits for the
response head and its forwarder is running. -/
theorem no_orphan_iff {ls : List Label} (h : exec (step req) State.init ls = some s) :
    Always (step req) NoOrphan State.init ls ↔ Meets (step req) NotDroppedAwaiting State.init ls :=
  always_iff_meets (fun _ _ _ hs _ hst => step_ownerInv hs hst)
    (fun _ _ _ hs hP _ hst => step_noOrphan hs hP hst) ownerInv_init (fun h => nomatch h.2.2)
    meets_true h

/-- The deadline elapses while the call waits for the response head. -/
def timedOutCall : List Label :=
  [.call (.acquired true),.call (.pooled (.ok ⟨⟨0⟩,⟨0⟩⟩)),.call (.built (.ok ())),.call (.sent (.ok ())),
   .tick 5,.timeout]

def streamingRequest : Request where
  call := ⟨"localhost",.default,⟨"POST",none,"/upload",[]⟩⟩
  body := .new [[1],[2]] .clean
  deadline := some 5

theorem timedOutCall_orphans : ∃ s, exec (step streamingRequest) State.init timedOutCall = some s ∧
    s.ended = true ∧ s.bodyGone = true ∧ s.running = true := ⟨_,rfl,rfl,rfl,rfl⟩

theorem timedOutCall_not_always : ¬ Always (step streamingRequest) NoOrphan State.init timedOutCall := by
  intro hall
  obtain ⟨s,hs,ho⟩ := timedOutCall_orphans
  exact hall.last hs ho

theorem orphaned_forwarder : ¬ ∀ req ls s, exec (step req) State.init ls = some s →
    Always (step req) NoOrphan State.init ls := by
  intro h
  obtain ⟨s,hs,-⟩ := timedOutCall_orphans
  exact timedOutCall_not_always (h _ _ s hs)

theorem no_orphan_iff_timedOutCall :
    ¬ Meets (step streamingRequest) NotDroppedAwaiting State.init timedOutCall := by
  intro hm
  obtain ⟨s,hs,-⟩ := timedOutCall_orphans
  exact timedOutCall_not_always ((no_orphan_iff hs).mpr hm)

end GrpcQuic.Rpc
