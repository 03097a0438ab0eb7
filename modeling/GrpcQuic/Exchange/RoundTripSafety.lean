import GrpcQuic.Exchange.RoundTripResponse

/-! # Nothing is made up on the way

In every run of a call, whatever fails or gets lost, the service reads a prefix of
the request and the client a prefix of what the service has answered, under the
head the service has answered with.
-/
namespace GrpcQuic.RoundTrip
open Transition Server
variable {x : Setup} {s t : State} {u : Transfer ResponseLoop}

/-- A send half that has just been taken over replaces one on which nothing was sent. -/
theorem transferInv_restart {σ : Type*} {b b' : Body} {u : Transfer σ} (h : TransferInv b u) {sender : Sender σ}
    (hc : u.sender.wire.closing = none) (ht : u.sender.wire.tape = .empty) (hs : SenderInv b' sender)
    (ht' : sender.wire.tape = .empty) : TransferInv b' { u with sender } := by
  have hopen {p : Prop} (c : Closing) (hcl : u.sender.wire.closing = some c) : p := nomatch hc.symm.trans hcl
  obtain ⟨past,hflow⟩ := h.flow
  refine ⟨hs,⟨past,?_,hflow.data,hflow.front,hflow.undone,hflow.done⟩,fun o ho => ?_,
    ⟨h.reading.undone,h.reading.data,fun hd htd => ?_⟩⟩
  · have hpulled := hflow.pulled
    rw [ht] at hpulled
    rw [ht']
    exact hpulled
  · obtain ⟨-,c,hcl,-⟩ := h.arrived o ho
    exact hopen c hcl
  · obtain ⟨ds,k,⟨c,hcl,-⟩ | herr⟩ := h.reading.done hd htd
    · exact hopen c hcl
    · exact ⟨ds,k,.inr herr⟩

/-- What arrives reaches the reader, wherever it is, and nothing is read by that. -/
theorem Shows.arrive (h : Shows x s u) {c : ClientRecvBody RecvHalf} {half : RecvHalf}
    (hc : s.client.reader x.request = some c)
    (hr : t.client.reader x.request = some { c with stream := half })
    (hy : t.client.yielded = s.client.yielded) {sender : Sender ResponseLoop} (hs : t.responder = sender)
    {m : TransferLabel} (hst : u.step responseLoop m = some { u.setHalf half with sender })
    (ha : t.answer = s.answer) : ∃ u', Shows x t u' ∧ (Exact x s u → Exact x t u') := by
  have hinv := step_transferInv h.inv hst
  refine ⟨{ u.setHalf half with sender },⟨?_,hs.symm,fun d hd => ?_,fun d hd hcl => ?_,?_,?_⟩,
    fun hE => ⟨?_,fun d hd => ?_⟩⟩
  · rw [ha]
    exact hinv
  · cases hr.symm.trans hd
    rfl
  · cases hr.symm.trans hd
    have hb := h.body c hc hcl
    simp only [Transfer.setHalf,hb]
  · rw [hy]
    exact h.data
  · rw [hy]
    exact h.kinds
  · rw [hy]
    exact hE.yielded
  · cases hr.symm.trans hd
    exact hE.notClosed c hc

theorem Shows.of_server (h : Shows x s u) {sender : Sender ResponseLoop}
    (hc : t.client.reader x.request = s.client.reader x.request)
    (hy : t.client.yielded = s.client.yielded) (hs : t.responder = sender)
    (hinv : TransferInv (answerBody t.answer) { u with sender }) :
    ∃ u', Shows x t u' ∧ (Exact x s u → Exact x t u') := by
  refine ⟨{ u with sender },⟨hinv,hs.symm,?_,?_,?_,?_⟩,fun hE => ⟨?_,?_⟩⟩
  · rw [hc]
    exact h.stream
  · rw [hc]
    exact h.body
  · rw [hy]
    exact h.data
  · rw [hy]
    exact h.kinds
  · rw [hy]
    exact hE.yielded
  · rw [hc]
    exact hE.notClosed

theorem Shows.of_same (h : Shows x s u) (hc : t.client.reader x.request = s.client.reader x.request)
    (hy : t.client.yielded = s.client.yielded) (hs : t.responder = s.responder) (ha : t.answer = s.answer) :
    ∃ u', Shows x t u' ∧ (Exact x s u → Exact x t u') := by
  have hinv : TransferInv (answerBody t.answer) { u with sender := u.sender } := by
    rw [ha]
    exact h.inv
  exact h.of_server hc hy (hs.trans h.sender.symm) hinv

theorem Shows.serve (h : Shows x s u) {hd hd' : Handler} {l : RequestLabel} (hh : s.handler = some hd)
    (hs : Serves hd hd' l) :
    ∃ u', Shows x { s with handler := some hd' } u' ∧
      (Exact x s u → Exact x { s with handler := some hd' } u') := by
  have hr : s.responder = responderOf hd.task := by simp only [State.responder,hh]
  have ha : s.answer = hd.answer := by simp only [State.answer,hh,Option.bind_some]
  have hinv := h.inv
  have hsend := h.sender
  rw [ha] at hinv
  rw [hr] at hsend
  cases hs with
  | same hr' ha' => exact h.of_same rfl rfl (hr'.trans hr.symm) (ha'.trans ha.symm)
  | moves m hm hst hne ha' =>
    refine h.of_server rfl rfl rfl ?_
    have hstep : u.step responseLoop (.send m) = some { u with sender := responderOf hd'.task } := by
      simp only [Transfer.step,hsend,hst,Option.map_some]
    change TransferInv (answerBody hd'.answer) _
    rw [ha']
    exact step_transferInv hinv hstep
  | answers head body hl hb hi ha' hr' =>
    have hs : SenderInv (answerBody hd'.answer) (responderOf hd'.task) := by
      rw [ha',hr']
      exact senderInv_respond head hb
    have ht : (responderOf hd'.task).wire.tape = .empty := by
      rw [hr']
      rfl
    refine h.of_server rfl rfl rfl (transferInv_restart hinv ?_ ?_ hs ht)
    · rw [hsend,hi]
      rfl
    · rw [hsend,hi]
      rfl
  | ends hl hi ha' hs ht =>
    have hs' : SenderInv (answerBody hd'.answer) (responderOf hd'.task) := by
      rw [ha']
      exact hs
    refine h.of_server rfl rfl rfl (transferInv_restart hinv ?_ ?_ hs' ht)
    · rw [hsend,hi]
      rfl
    · rw [hsend,hi]
      rfl

theorem Shows.receive (h : Shows x s u) {f : Wire → RecvHalf → Option (Wire × RecvHalf)}
    (hst : s.receive f = some t) : ∃ u', Shows x t u' ∧ (Exact x s u → Exact x t u') := by
  unfold State.receive at hst
  split at hst
  · rename_i forwarder hd hf hh
    obtain ⟨⟨w,half⟩,hw,rfl⟩ := Option.map_eq_some_iff.mp hst
    refine h.of_same rfl rfl ?_ ?_
    · simp only [State.responder,hh]
    · simp only [State.answer,hh,Option.bind_some]
  · cases hst

/-- Every step of the call leaves a reading of the response wire behind what the
client has read. -/
theorem step_shows (h : Shows x s u) (hO : Opened s) (hH : ∀ hd, s.handler = some hd → HandlerInv hd)
    {l : Label} (hst : step x s l = some t) :
    ∃ u', Shows x t u' ∧ (Undisturbed s l → Exact x s u → Exact x t u') := by
  have hall (hex : ∃ u', Shows x t u' ∧ (Exact x s u → Exact x t u')) :
      ∃ u', Shows x t u' ∧ (Undisturbed s l → Exact x s u → Exact x t u') := by
    obtain ⟨u',hu,hE⟩ := hex
    exact ⟨u',hu,fun _ => hE⟩
  cases l with
  | client l =>
    simp only [step] at hst
    split at hst
    · rename_i ho
      obtain ⟨client,hc,rfl⟩ := Option.map_eq_some_iff.mp hst
      refine h.of_client hO hc ?_ ?_
      · rintro d rfl
        cases ho
      · rintro e rfl
        cases ho
    · cases hst
  | respond =>
    obtain ⟨head,-,hst⟩ := Option.bind_eq_some_iff.mp hst
    obtain ⟨client,hc,rfl⟩ := Option.map_eq_some_iff.mp hst
    obtain ⟨u',hu,hE⟩ := h.of_client hO hc (by simp) (by simp)
    exact ⟨u',hu,fun _ => hE (by simp [Undisturbed])⟩
  | accept =>
    simp only [step] at hst
    split at hst
    · rename_i f hf hh
      cases hst
      refine hall (h.of_same rfl rfl ?_ ?_)
      · simp only [State.responder,hh]
        rfl
      · simp only [State.answer,hh]
        rfl
    · cases hst
  | serve l =>
    obtain ⟨hd,hh,hst⟩ := Option.bind_eq_some_iff.mp hst
    obtain ⟨hd',hserve,rfl⟩ := Option.map_eq_some_iff.mp hst
    exact hall (h.serve hh ((hH hd hh).serve hserve).2)
  | read =>
    obtain ⟨hd,hh,hst⟩ := Option.bind_eq_some_iff.mp hst
    obtain ⟨hd',hpoll,rfl⟩ := Option.map_eq_some_iff.mp hst
    obtain rfl := poll_readFrame hpoll
    have hframe : hd.readFrame.task = hd.task ∧ hd.readFrame.answer = hd.answer := by
      unfold Handler.readFrame
      split <;> exact ⟨rfl,rfl⟩
    refine hall (h.of_same rfl rfl ?_ ?_)
    · simp only [State.responder,hh,hframe.1]
    · simp only [State.answer,hh,Option.bind_some,hframe.2]
  | requestBytes n =>
    simp only [step] at hst
    exact hall (h.receive hst)
  | requestEnd m =>
    simp only [step] at hst
    exact hall (h.receive hst)
  | requestLost m =>
    simp only [step] at hst
    exact hall (h.receive hst)
  | responseBytes n =>
    obtain ⟨chunk,hp,hst⟩ := Option.bind_eq_some_iff.mp hst
    obtain ⟨client,hc,rfl⟩ := Option.map_eq_some_iff.mp hst
    cases hO.halves.moves hc with
    | still l hl => cases hl
    | release l hl => rcases hl with hl | hl <;> cases hl
    | arrive d c hrd he hf hr hy =>
      have hrsp : (State.mk client
            (s.handler.map fun h => { h with task := pullTask h.task (frameCells chunk).length })).responder =
          { s.responder with wire := { s.responder.wire with
            tape := s.responder.wire.tape.pull (frameCells chunk).length } } := by
        cases hh : s.handler with
        | none => simp only [State.responder,hh,Option.map_none,idle,Sender.respond,Wire.new,pull_empty]
        | some hd => simp only [State.responder,hh,Option.map_some,responderOf_pull]
      refine hall (h.arrive hrd hr hy hrsp (m := .deliver n) ?_ ?_)
      · simp only [Transfer.step,h.sender,h.stream c hrd,Wire.deliver,he,hp,Option.map_some]
      · cases hh : s.handler <;> simp only [State.answer,hh,Option.map_none,Option.map_some,Option.bind_none,
          Option.bind_some]
  | responseEnd m =>
    simp only [step] at hst
    split at hst
    · rename_i c hcl
      split at hst
      · rename_i hx
        obtain ⟨client,hc,rfl⟩ := Option.map_eq_some_iff.mp hst
        cases hO.halves.moves hc with
        | still l hl => cases hl
        | release l hl => rcases hl with hl | hl <;> cases hl
        | arriveEnd e c hrd he hf hr hy =>
          refine hall (h.arrive hrd hr hy h.sender.symm (m := .deliverEnd m) ?_ rfl)
          simp only [Transfer.step,h.stream c hrd,Wire.deliverEnd,he,h.sender,hcl,hx,if_true,Option.map_some]
          rw [← h.sender]
          rfl
      · cases hst
    · cases hst
  | responseLost m =>
    obtain ⟨client,hc,rfl⟩ := Option.map_eq_some_iff.mp hst
    cases hO.halves.moves hc with
    | still l hl => cases hl
    | release l hl => rcases hl with hl | hl <;> cases hl
    | arriveEnd e c hrd he hf hr hy =>
      refine hall (h.arrive hrd hr hy h.sender.symm (m := .lose m) ?_ rfl)
      simp only [Transfer.step,h.stream c hrd,RecvHalf.lose,he,Option.map_some]
      rfl

def answerHead : Option (ResponseHead × Body) → ResponseHead
  | some (head,_) => head
  | none => ⟨500,[]⟩

structure Inv (x : Setup) (s : State) : Prop where
  opened : Opened s
  handler : ∀ hd, s.handler = some hd → HandlerInv hd
  request : ∀ hd, s.handler = some hd → hd.request = x.call.h3Request
  head : ∀ head, s.client.call.phase = .done (.ok head) → s.responder.wire.head = some head
  shows : ∃ u, Shows x s u

theorem inv_init : Inv x State.init := by
  refine ⟨opened_init,?_,?_,?_,_,shows_init⟩
  · rintro hd ⟨⟩
  · rintro hd ⟨⟩
  · rintro head ⟨⟩

theorem HandlerInv.headInv {h : Handler} (hI : HandlerInv h) :
    HeadInv (answerHead h.answer) (responderOf h.task) := by
  cases hI with
  | unanswered ha hp hs =>
    rw [ha]
    unfold responderOf
    split
    · exact (hp _ ‹_›).elim
    · refine ⟨by simp,fun hd hh => ?_⟩
      rcases hs with hs | ⟨-,hs⟩
      · rw [hs] at hh
        cases hh
      · rw [hs] at hh
        cases hh
        rfl
    · refine ⟨fun hd stage hh => ?_,by rintro hd ⟨⟩⟩
      cases hh
      rfl
  | answered head body sender ha hp hh =>
    rw [ha]
    simp only [responderOf,hp]
    exact hh

theorem Inv.headInv (h : Inv x s) : HeadInv (answerHead s.answer) s.responder := by
  cases hh : s.handler with
  | none =>
    simp only [State.answer,State.responder,hh,Option.bind_none]
    refine ⟨fun hd stage he => ?_,by rintro hd ⟨⟩⟩
    cases he
    rfl
  | some hd =>
    simp only [State.answer,State.responder,hh,Option.bind_some]
    exact (h.handler hd hh).headInv

/-- A head stays on the wire of a task that goes on. -/
theorem HandlerInv.head_serve {h h' : Handler} {l : RequestLabel} (hI : HandlerInv h) (hS : Serves h h' l)
    {head : ResponseHead} (hh : (responderOf h.task).wire.head = some head) :
    (responderOf h'.task).wire.head = some head := by
  cases hS with
  | same hr ha => exact (congrArg (fun r => r.wire.head) hr).trans hh
  | moves m hm hst hne ha =>
    have hst' := step_head hI.headInv hst
    obtain ⟨hd,hhd⟩ := Option.ne_none_iff_exists'.mp (hst'.2 (by rw [hh]; exact nofun))
    rw [hhd,hst'.1.2 hd hhd,hI.headInv.2 head hh]
  | answers head' body hl hb hi ha hr =>
    rw [hi] at hh
    cases hh
  | ends hl hi ha hs ht =>
    rw [hi] at hh
    cases hh

/-- Only the head of the response ends a call well. -/
theorem done_head {c c' : Rpc.State} {l : Rpc.Label} (hst : Rpc.step x.request c l = some c')
    {head : ResponseHead} (hp : c'.call.phase = .done (.ok head)) :
    c.call.phase = .done (.ok head) ∨ l = .call (.responded (.ok head)) := by
  have hkeep {f : RecvHalf → RecvHalf} {u : Rpc.State} (hu : c.mapHalf f = some u) : u.call = c.call := by
    rcases Rpc.mapHalf_cases hu with ⟨half,-,-,rfl⟩ | ⟨b,-,-,-,rfl⟩ <;> rfl
  rcases Rpc.step_cases hst with ⟨e,cs,rfl,-,hcs,rfl⟩ | ⟨-,-,rfl⟩ | ⟨m,f,f',-,-,-,-,rfl⟩ | ⟨d,u,-,hu,rfl⟩ |
    ⟨e,u,-,hu,rfl⟩ | ⟨n,-,rfl⟩ | ⟨b,-,-,rfl⟩ | ⟨b,-,-,rfl⟩
  · have hcall : ((c.goOn x.request cs).onEvent x.request e).call = cs := by
      cases e with
      | sent r => cases r <;> rfl
      | responded r =>
        cases r with
        | ok _ =>
          simp only [Rpc.State.onEvent]
          split <;> rfl
        | error _ => rfl
      | _ => rfl
    rw [hcall] at hp
    have hnext := Call.step_phase hcs
    rw [hp] at hnext
    generalize c.call.phase = p at hnext
    cases hnext with
    | responded _ => exact .inr rfl
    | admitted _ hl => rcases hl with hl | hl | ⟨_,hl⟩ <;> cases hl
    | invalidated _ hl => rcases hl with hl | hl | ⟨_,hl⟩ <;> cases hl
  · exact .inl hp
  · exact .inl hp
  · exact .inl ((congrArg Call.State.phase (hkeep hu)).symm.trans hp)
  · exact .inl ((congrArg Call.State.phase (hkeep hu)).symm.trans hp)
  · exact .inl hp
  · exact .inl ((congrArg Call.State.phase (Rpc.abortIf_call c _)).symm.trans hp)
  · exact .inl ((congrArg Call.State.phase (Rpc.abortIf_call c _)).symm.trans hp)

theorem handler_cases {l : Label} (hst : step x s l = some t) :
    t.handler = s.handler ∨
    (s.handler = none ∧ t.handler = some (.new x.call.h3Request x.call.parts.path)) ∨
    (∃ m hd hd', l = .serve m ∧ s.handler = some hd ∧ hd.serve m = some hd' ∧ t.handler = some hd') ∨
    (∃ hd body read, s.handler = some hd ∧ t.handler = some { hd with body, read }) ∨
    (∃ n, t.handler = s.handler.map fun hd => { hd with task := pullTask hd.task n }) := by
  have hreceive {f : Wire → RecvHalf → Option (Wire × RecvHalf)} (hst : s.receive f = some t) :
      ∃ hd body read, s.handler = some hd ∧ t.handler = some { hd with body, read } := by
    unfold State.receive at hst
    split at hst
    · rename_i f hd hf hh
      obtain ⟨⟨w,half⟩,-,rfl⟩ := Option.map_eq_some_iff.mp hst
      exact ⟨hd,_,hd.read,hh,rfl⟩
    · cases hst
  cases l with
  | client l =>
    simp only [step] at hst
    split at hst
    · obtain ⟨client,-,rfl⟩ := Option.map_eq_some_iff.mp hst
      exact .inl rfl
    · cases hst
  | respond =>
    obtain ⟨head,-,hst⟩ := Option.bind_eq_some_iff.mp hst
    obtain ⟨client,-,rfl⟩ := Option.map_eq_some_iff.mp hst
    exact .inl rfl
  | accept =>
    simp only [step] at hst
    split at hst
    · rename_i f hf hh
      cases hst
      exact .inr (.inl ⟨hh,rfl⟩)
    · cases hst
  | serve m =>
    obtain ⟨hd,hh,hst⟩ := Option.bind_eq_some_iff.mp hst
    obtain ⟨hd',hserve,rfl⟩ := Option.map_eq_some_iff.mp hst
    exact .inr (.inr (.inl ⟨m,hd,hd',rfl,hh,hserve,rfl⟩))
  | read =>
    obtain ⟨hd,hh,hst⟩ := Option.bind_eq_some_iff.mp hst
    obtain ⟨hd',hpoll,rfl⟩ := Option.map_eq_some_iff.mp hst
    obtain rfl := poll_readFrame hpoll
    refine .inr (.inr (.inr (.inl ⟨hd,hd.readFrame.body,hd.readFrame.read,hh,?_⟩)))
    unfold Handler.readFrame
    split <;> rfl
  | requestBytes n =>
    simp only [step] at hst
    exact .inr (.inr (.inr (.inl (hreceive hst))))
  | requestEnd m =>
    simp only [step] at hst
    exact .inr (.inr (.inr (.inl (hreceive hst))))
  | requestLost m =>
    simp only [step] at hst
    exact .inr (.inr (.inr (.inl (hreceive hst))))
  | responseBytes n =>
    obtain ⟨chunk,-,hst⟩ := Option.bind_eq_some_iff.mp hst
    obtain ⟨client,-,rfl⟩ := Option.map_eq_some_iff.mp hst
    exact .inr (.inr (.inr (.inr ⟨(frameCells chunk).length,rfl⟩)))
  | responseEnd m =>
    simp only [step] at hst
    split at hst
    · split at hst
      · obtain ⟨client,-,rfl⟩ := Option.map_eq_some_iff.mp hst
        exact .inl rfl
      · cases hst
    · cases hst
  | responseLost m =>
    obtain ⟨client,-,rfl⟩ := Option.map_eq_some_iff.mp hst
    exact .inl rfl

/-- A call ends well only when the head of the response gets to it. -/
theorem step_done {l : Label} (hst : step x s l = some t) {head : ResponseHead}
    (hp : t.client.call.phase = .done (.ok head)) :
    s.client.call.phase = .done (.ok head) ∨ s.responder.wire.head = some head := by
  have hreceive {f : Wire → RecvHalf → Option (Wire × RecvHalf)} (hst : s.receive f = some t) :
      t.client.call = s.client.call := by
    unfold State.receive at hst
    split at hst
    · obtain ⟨wh,-,rfl⟩ := Option.map_eq_some_iff.mp hst
      rfl
    · cases hst
  have hclient {l : Rpc.Label} (hc : Rpc.step x.request s.client l = some t.client)
      (hl : ∀ h, l ≠ .call (.responded (.ok h))) :
      s.client.call.phase = .done (.ok head) ∨ s.responder.wire.head = some head := by
    rcases done_head hc hp with hd | hd
    · exact .inl hd
    · exact (hl _ hd).elim
  cases l with
  | client l =>
    simp only [step] at hst
    split at hst
    · rename_i ho
      obtain ⟨client,hc,rfl⟩ := Option.map_eq_some_iff.mp hst
      refine hclient hc ?_
      rintro h rfl
      cases ho
    · cases hst
  | respond =>
    obtain ⟨head',hh,hst⟩ := Option.bind_eq_some_iff.mp hst
    obtain ⟨client,hc,rfl⟩ := Option.map_eq_some_iff.mp hst
    rcases done_head hc hp with hd | hd
    · exact .inl hd
    · cases hd
      exact .inr hh
  | accept =>
    simp only [step] at hst
    split at hst
    · cases hst
      exact .inl hp
    · cases hst
  | serve m =>
    obtain ⟨hd,hh,hst⟩ := Option.bind_eq_some_iff.mp hst
    obtain ⟨hd',hserve,rfl⟩ := Option.map_eq_some_iff.mp hst
    exact .inl hp
  | read =>
    obtain ⟨hd,hh,hst⟩ := Option.bind_eq_some_iff.mp hst
    obtain ⟨hd',hpoll,rfl⟩ := Option.map_eq_some_iff.mp hst
    exact .inl hp
  | requestBytes n =>
    simp only [step] at hst
    rw [hreceive hst] at hp
    exact .inl hp
  | requestEnd m =>
    simp only [step] at hst
    rw [hreceive hst] at hp
    exact .inl hp
  | requestLost m =>
    simp only [step] at hst
    rw [hreceive hst] at hp
    exact .inl hp
  | responseBytes n =>
    obtain ⟨chunk,-,hst⟩ := Option.bind_eq_some_iff.mp hst
    obtain ⟨client,hc,rfl⟩ := Option.map_eq_some_iff.mp hst
    exact hclient hc (by simp)
  | responseEnd m =>
    simp only [step] at hst
    split at hst
    · split at hst
      · obtain ⟨client,hc,rfl⟩ := Option.map_eq_some_iff.mp hst
        exact hclient hc (by simp)
      · cases hst
    · cases hst
  | responseLost m =>
    obtain ⟨client,hc,rfl⟩ := Option.map_eq_some_iff.mp hst
    exact hclient hc (by simp)

theorem step_inv (h : Inv x s) {l : Label} (hst : step x s l = some t) : Inv x t := by
  obtain ⟨u,hu⟩ := h.shows
  obtain ⟨u',hu',-⟩ := step_shows hu h.opened h.handler hst
  have hhead {head : ResponseHead} (hp : t.client.call.phase = .done (.ok head)) :
      s.responder.wire.head = some head := by
    rcases step_done hst hp with hd | hd
    · exact h.head head hd
    · exact hd
  rcases handler_cases hst with hh | ⟨hn,hh⟩ | ⟨m,hd,hd',-,hs,hserve,hh⟩ | ⟨hd,body,read,hs,hh⟩ | ⟨n,hh⟩
  · refine ⟨step_opened h.opened hst,?_,?_,fun head hp => ?_,u',hu'⟩
    · rw [hh]
      exact h.handler
    · rw [hh]
      exact h.request
    · have hr := hhead hp
      unfold State.responder at hr ⊢
      rw [hh]
      exact hr
  · refine ⟨step_opened h.opened hst,fun hd hhd => ?_,fun hd hhd => ?_,fun head hp => ?_,u',hu'⟩
    · cases hh.symm.trans hhd
      exact handlerInv_new ..
    · cases hh.symm.trans hhd
      rfl
    · have hr := hhead hp
      simp only [State.responder,hn] at hr
      cases hr
  · obtain ⟨hI,hS⟩ := (h.handler hd hs).serve hserve
    refine ⟨step_opened h.opened hst,fun hd₁ hhd => ?_,fun hd₁ hhd => ?_,fun head hp => ?_,u',hu'⟩
    · cases hh.symm.trans hhd
      exact hI
    · cases hh.symm.trans hhd
      have hr := h.request hd hs
      obtain ⟨task,-,⟨rfl,-⟩ | ⟨head,body,-,-,rfl⟩⟩ := serve_cases hserve <;> exact hr
    · have hr := hhead hp
      simp only [State.responder,hs] at hr
      simp only [State.responder,hh]
      exact (h.handler hd hs).head_serve hS hr
  · refine ⟨step_opened h.opened hst,fun hd₁ hhd => ?_,fun hd₁ hhd => ?_,fun head hp => ?_,u',hu'⟩
    · cases hh.symm.trans hhd
      cases h.handler hd hs with
      | unanswered ha hp hs' => exact .unanswered ha hp hs'
      | answered head b sender ha hp hh' => exact .answered head b sender ha hp hh'
    · cases hh.symm.trans hhd
      exact h.request hd hs
    · have hr := hhead hp
      simp only [State.responder,hs] at hr
      simp only [State.responder,hh]
      exact hr
  · refine ⟨step_opened h.opened hst,fun hd₁ hhd => ?_,fun hd₁ hhd => ?_,fun head hp => ?_,u',hu'⟩
    · obtain ⟨hd,hs,rfl⟩ := Option.map_eq_some_iff.mp (hh.symm.trans hhd)
      exact (h.handler hd hs).pull n
    · obtain ⟨hd,hs,rfl⟩ := Option.map_eq_some_iff.mp (hh.symm.trans hhd)
      exact h.request hd hs
    · have hr := hhead hp
      cases hs : s.handler with
      | none =>
        simp only [State.responder,hs] at hr
        cases hr
      | some hd =>
        rw [hs,Option.map_some] at hh
        simp only [State.responder,hs] at hr
        simp only [State.responder,hh,responderOf_pull]
        exact hr

/-- Trailers that were read are those of the body. -/
theorem read_trailers {σ : Type*} {b : Body} {u : Transfer σ} (h : TransferInv b u) {tr : HeaderMap}
    (hr : some (.ok (.trailers tr)) ∈ u.yielded) : b.ending = .trailers tr := by
  cases hd : u.body.dataDone with
  | false =>
    rcases (h.reading.undone hd).2 _ hr with ⟨d,he⟩ | ⟨⟨e,he⟩,-⟩ <;> cases he
  | true =>
    cases htd : u.body.trailersDone with
    | false =>
      obtain ⟨ds,hds⟩ := h.reading.data hd htd
      rw [hds] at hr
      obtain ⟨d,-,he⟩ := List.mem_map.mp hr
      cases he
    | true =>
      obtain ⟨ds,k,⟨c,hc,-,-,-,hy⟩ | ⟨e,-,hy⟩⟩ := h.reading.done hd htd
      · rw [hy] at hr
        rcases List.mem_append.mp hr with hr | hr
        · rcases List.mem_append.mp hr with hr | hr
          · obtain ⟨d,-,he⟩ := List.mem_map.mp hr
            cases he
          · cases c with
            | fin => cases List.mem_singleton.mp hr
            | broken => cases hr
            | trailers tr' =>
              cases List.mem_singleton.mp hr
              exact h.sender.trailed tr hc
        · cases List.eq_of_mem_replicate hr
      · rw [hy] at hr
        rcases List.mem_append.mp hr with hr | hr
        · obtain ⟨d,-,he⟩ := List.mem_map.mp hr
          cases he
        · rcases List.mem_cons.mp hr with hr | hr
          · cases hr
          · cases List.eq_of_mem_replicate hr

theorem read_initial {σ : Type*} {b : Body} {u : Transfer σ} (h : TransferInv b u) :
    yieldedData u.yielded <+: b.data :=
  h.read_of_produced.trans (by
    rw [Body.data,← h.sender.stock,List.flatten_append]
    exact List.prefix_append ..)

theorem upload_of_run {ls : List Label} (h : exec (step x) State.init ls = some s) {hd : Handler}
    (hh : s.handler = some hd) :
    ∃ f, s.client.forwarder = some f ∧ TransferInv (.new x.frames x.ending) ⟨f,hd.body,hd.read⟩ := by
  have hI : Inv x s := exec_invariant (fun _ _ _ hs hst => step_inv hs hst) inv_init h
  obtain ⟨f,hf⟩ := Option.ne_none_iff_exists'.mp fun hn => nomatch hh.symm.trans (hI.opened.accepted hn)
  have hA : Meets (step x) (fun s l => ∀ m ∈ s.uploads l, True) State.init ls :=
    meets_of_labels (I := fun _ => True) (A := fun _ => True) (fun _ _ _ _ _ _ => trivial)
      (fun _ _ _ _ _ _ => trivial) trivial fun _ _ => trivial
  obtain ⟨ms,-,hms⟩ := exec_uploads h hA f hf
  refine ⟨f,hf,?_⟩
  have hu : s.uploadOf f = ⟨f,hd.body,hd.read⟩ := by
    unfold State.uploadOf
    rw [hh]
  rw [← hu]
  exact upload_transferInv hms

/-- Whatever fails, is dropped or gets lost: the service is called with the head
of the call and reads a prefix of its body and no other trailers; and what the
call returns and its response body yields is the head, a prefix of the body and
the trailers of the service's answer, or the status of the deadline. -/
theorem round_trip_safe (x : Setup) {ls : List Label} (h : exec (step x) State.init ls = some s) :
    (∀ hd, s.handler = some hd → hd.request = x.call.h3Request ∧ yieldedData hd.read <+: x.frames.flatten ∧
      ∀ tr, some (.ok (.trailers tr)) ∈ hd.read → x.ending = .trailers tr) ∧
    (∀ head, s.client.call.phase = .done (.ok head) → head = answerHead s.answer) ∧
    yieldedData s.client.yielded <+: (answerBody s.answer).data ∧
    ∀ tr, some (.ok (.trailers tr)) ∈ s.client.yielded →
      tr = deadlineTrailers ∨ (answerBody s.answer).ending = .trailers tr := by
  have hI : Inv x s := exec_invariant (fun _ _ _ hs hst => step_inv hs hst) inv_init h
  obtain ⟨u,hu⟩ := hI.shows
  refine ⟨fun hd hh => ?_,fun head hp => hI.headInv.2 head (hI.head head hp),?_,fun tr htr => ?_⟩
  · obtain ⟨f,-,hT⟩ := upload_of_run h hh
    exact ⟨hI.request hd hh,read_initial hT,fun tr htr => read_trailers hT htr⟩
  · rw [hu.data]
    exact read_initial hu.inv
  · rcases hu.kinds _ htr with hr | hr | hr | ⟨e,hr⟩
    · exact .inr (read_trailers hu.inv hr)
    · cases hr
    · cases hr
      exact .inl rfl
    · cases hr

def helloCall : Setup where
  call := ⟨"localhost",.default,⟨"POST",none,"/hello",[]⟩⟩
  frames := [[1,2],[3]]
  ending := .clean
  deadline := none

/-- The service has read the first byte of its request when it answers with data and
trailers, and the client reads the answer to its end. -/
def answeredCall : List Label :=
  [.client (.call (.acquired true)),.client (.call (.pooled (.ok ⟨⟨0⟩,⟨0⟩⟩))),.client (.call (.built (.ok ()))),
   .client (.call (.sent (.ok ()))),.accept,.client (.forward .poll),.client (.forward .begin),
   .client (.forward (.write 2)),.serve .start,.serve (.ready true),.requestBytes 1,.read,
   .serve (.called (some (⟨200,[]⟩,.new [[7,8]] (.trailers [("grpc-status","0")])))),.serve (.send .begin),
   .serve (.send .flush),.serve (.send .sent),.respond,.serve (.send .poll),.serve (.send .begin),
   .serve (.send (.write 2)),.serve (.send .flush),.serve (.send .sent),.responseBytes 1,.client .poll,
   .serve (.send .poll),.serve (.send .begin),.serve (.send .flush),.serve (.send .sent),.responseBytes 5,
   .responseEnd "",.client .poll,.client .poll,.client .poll]

theorem round_trip_safe_answeredCall :
    ∃ s, exec (step helloCall) State.init answeredCall = some s ∧
      s.client.yielded = dataFrames [[7],[8]] ++ [some (.ok (.trailers [("grpc-status","0")])),none] ∧
      (∀ head, s.client.call.phase = .done (.ok head) → head = ⟨200,[]⟩) ∧
      ∀ hd, s.handler = some hd → yieldedData hd.read <+: [1,2,3] :=
  have h : exec (step helloCall) State.init answeredCall = some _ := rfl
  ⟨_,h,rfl,(round_trip_safe helloCall h).2.1,fun hd hh => ((round_trip_safe helloCall h).1 hd hh).2.1⟩

end GrpcQuic.RoundTrip
