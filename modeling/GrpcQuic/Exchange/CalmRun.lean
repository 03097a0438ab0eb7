import GrpcQuic.Client.ConcurrencyLimit
import GrpcQuic.Client.DeadlineStatus
import GrpcQuic.Exchange.TransferEnds
import GrpcQuic.Exchange.Transparency

/-! # What a calm run keeps

As long as nothing fails, both ends of a call stay able to go on: the client has its
call and its response body, the task has not given up its answer, and neither half of
the stream has broken off.
-/
namespace GrpcQuic.RoundTrip
open Transition Server
variable {x : Setup} {f : Service}

def Silent (sender : Sender Forwarder) : Prop := ∀ e, sender.loop.errTx ≠ .sent e

theorem dropSender_silent {err : Oneshot CoreError} (h : ∀ e, err ≠ .sent e) (e : CoreError) :
    err.dropSender ≠ .sent e := by
  cases err with
  | empty => exact nofun
  | sent e' => exact (h e' rfl).elim
  | closed => exact nofun

/-- The forwarder reports nothing as long as neither its body nor a send fails. -/
theorem step_silent {b : Body} {sender sender' : Sender Forwarder} (h : Silent sender)
    (hI : SenderInv b sender) (hb : ∀ e, b.ending ≠ .error e) {l : SendLabel} (hl : l.orderly = true)
    (hst : sender.step forwarderLoop l = some sender') : Silent sender' := by
  rcases step_cases hst with ⟨rfl,ha,rfl⟩ | ⟨rfl,op,-,-,rfl⟩ | ⟨n,d,rest,rfl,-,rfl⟩ |
    ⟨rfl,-,op,stage,-,-,rfl⟩ | ⟨rfl,op,-,rfl⟩ | ⟨m,op,stage,rfl,-⟩ | ⟨rfl,-⟩
  · unfold Sender.onFrame
    split
    · exact h
    · exact h
    · rename_i e he
      exact (hb e (hI.ending.symm.trans (Body.ending_of_next_error he))).elim
    · exact h
  · exact h
  · exact h
  · exact h
  · cases op with
    | head hd => exact h
    | data d => exact h
    | trailers tr => exact dropSender_silent h
    | finish => exact dropSender_silent h
  · cases hl
  · cases hl

/-! ## What a calm run keeps of the client -/

def Gentle : Rpc.Label → Prop
  | .timeout => False
  | .dropCall => False
  | .dropBody => False
  | .call (.responded (.error _)) => False
  | .arriveEnd (.error _) => False
  | _ => True

structure ClientLive (x : Setup) (c : Rpc.State) : Prop where
  undropped : c.dropped = false
  body : c.body ≠ .dropped
  returned : ∀ head, c.call.phase = .done (.ok head) → c.body ≠ .absent
  timer : Rpc.TimerInv x.request c
  reader : ∀ r, c.reader x.request = some r → ∀ m, r.stream.ending ≠ some (.error m)

section
variable {c c' : Rpc.State}

theorem reader_ending (hH : Rpc.HalvesInv c) (h : ClientLive x c) {l : Rpc.Label} (hl : Gentle l)
    (hst : Rpc.step x.request c l = some c') :
    ∀ r, c'.reader x.request = some r → ∀ m, r.stream.ending ≠ some (.error m) := by
  intro r hr m hm
  cases hH.moves hst with
  | still l hl hf hr' hy => exact h.reader r (hr'.symm.trans hr) m hm
  | spawn hf hf' hr' hy hy' =>
    cases hr'.symm.trans hr
    cases hm
  | fail m' hf hr' hy => exact hl
  | release l hl' hf hr' hy => rcases hl' with rfl | rfl <;> exact hl
  | forward m' f f' hf hsend hf' hr' hy => exact h.reader r (hr'.symm.trans hr) m hm
  | arrive d b hb he hf hr' hy =>
    cases hr'.symm.trans hr
    exact h.reader b hb m hm
  | arriveEnd e b hb he hf hr' hy =>
    cases hr'.symm.trans hr
    cases hm
    exact hl
  | poll b hb hb' hf hr' hy =>
    cases hr'.symm.trans hr
    rcases b.pollFrame_cases c.now c.err with ⟨-,hp⟩ | ⟨-,-,r,hp,-⟩ | ⟨-,-,-,e,-,hp⟩ | ⟨-,-,-,rx,-,hp⟩ <;>
      rw [hp] at hm
    · exact h.reader b hb' m hm
    · exact h.reader b hb' m hm
    · exact h.reader b hb' m hm
    · exact h.reader b hb' m (pollFrame_ending b.toServerRecvBody hm)
  | dropBody b hb hf hr' hy => exact hl

theorem step_clientLive (hH : Rpc.HalvesInv c) (h : ClientLive x c) {l : Rpc.Label} (hl : Gentle l)
    (hst : Rpc.step x.request c l = some c') : ClientLive x c' := by
  have htimer := Rpc.step_timerInv hH.owner h.timer hst
  have hreader := reader_ending hH h hl hst
  have hhalf {g : RecvHalf → RecvHalf} {u : Rpc.State} (hu : c.mapHalf g = some u) :
      u.dropped = false ∧ u.body ≠ .dropped ∧ ∀ head, u.call.phase = .done (.ok head) → u.body ≠ .absent := by
    rcases Rpc.mapHalf_cases hu with ⟨half,-,-,rfl⟩ | ⟨b,-,-,-,rfl⟩
    · exact ⟨h.undropped,h.body,h.returned⟩
    · exact ⟨h.undropped,by simp,by simp⟩
  rcases Rpc.step_cases hst with ⟨e,cs,rfl,hd,hcs,rfl⟩ | ⟨hl',-,-⟩ | ⟨m,fw,fw',-,-,-,-,rfl⟩ |
    ⟨d,u,-,hu,rfl⟩ | ⟨e,u,-,hu,rfl⟩ | ⟨k,-,rfl⟩ | ⟨b,-,hb,rfl⟩ | ⟨b,rfl,-⟩
  · rcases Rpc.call_step_cases hcs with ⟨entry,rfl,hp,hp'⟩ | ⟨r,res,rfl,hp,hp'⟩ | ⟨hr,hs,hp,hp',-⟩
    · refine ⟨hd,h.body,fun head hdone => ?_,htimer,hreader⟩
      cases hp'.symm.trans hdone
    · cases r with
      | error m => exact hl.elim
      | ok head =>
        obtain ⟨half,hh⟩ := Option.ne_none_iff_exists'.mp (hH.owner.held hp hd)
        rw [Rpc.onEvent_head cs head hh] at htimer hreader ⊢
        exact ⟨hd,by simp,by simp,htimer,hreader⟩
    · refine ⟨?_,?_,fun head hdone => ?_,htimer,hreader⟩
      · rw [(Rpc.onEvent_other x.request hr hs).2]
        exact hd
      · rw [(Rpc.onEvent_other x.request hr hs).2]
        exact h.body
      · rcases done_head hst hdone with hdone | he
        · exact (hp' _ hdone).elim
        · cases he
          exact (hr _ rfl).elim
  · rcases hl' with rfl | rfl <;> exact hl.elim
  · exact ⟨h.undropped,h.body,h.returned,htimer,hreader⟩
  · exact ⟨(hhalf hu).1,(hhalf hu).2.1,(hhalf hu).2.2,htimer,hreader⟩
  · exact ⟨(hhalf hu).1,(hhalf hu).2.1,(hhalf hu).2.2,htimer,hreader⟩
  · exact ⟨h.undropped,h.body,h.returned,htimer,hreader⟩
  · exact ⟨(Rpc.abortIf_dropped c _).trans h.undropped,by simp,by simp,htimer,hreader⟩
  · exact hl.elim

/-- The stream of the call is open, or the call has its response. -/
def Underway (c : Rpc.State) : Prop :=
  c.call.phase = .awaitingResponse ∨ ∃ head, c.call.phase = .done (.ok head)

theorem step_underway (h : Underway c) {l : Rpc.Label} (hl : Gentle l)
    (hst : Rpc.step x.request c l = some c') : Underway c' := by
  rcases ConcurrencyLimit.rpc_step_frame hst with ⟨e,rfl,-,-,hcs⟩ | ⟨-,hcall,-⟩
  · have hnext := Call.step_phase hcs
    unfold Underway at h ⊢
    generalize c.call.phase = p at hnext h
    generalize c'.call.phase = p' at hnext ⊢
    cases hnext with
    | responded head => exact .inr ⟨head,rfl⟩
    | recvFailed m => exact hl.elim
    | _ => rcases h with h | ⟨head,h⟩ <;> cases h
  · unfold Underway
    rw [hcall]
    exact h

end

/-! ## What a calm run keeps of the response half -/

section
variable {σ : Type*} {L : SendLoop σ} {sender sender' : Sender σ}

def Begun (sender : Sender σ) : Prop :=
  sender.wire.head ≠ none ∨ ∃ head stage, stage ≠ .flushed ∧ sender.await = .send (.head head) stage

theorem step_begun (h : Begun sender) {l : SendLabel} (hl : l.orderly = true)
    (hst : sender.step L l = some sender') : Begun sender' := by
  rcases step_cases hst with ⟨rfl,ha,rfl⟩ | ⟨rfl,op,-,ha,rfl⟩ | ⟨n,d,rest,rfl,ha,rfl⟩ |
    ⟨rfl,-,op,stage,ha,-,rfl⟩ | ⟨rfl,op,ha,rfl⟩ | ⟨m,op,stage,rfl,-⟩ | ⟨rfl,-⟩
  · rcases h with h | ⟨head,stage,-,ha'⟩
    · left
      unfold Sender.onFrame
      split
      · exact h
      · exact h
      · rw [(exit_head ..).1]
        exact h
      · rw [(exit_head ..).1]
        exact h
    · cases ha.symm.trans ha'
  · rcases h with h | ⟨head,stage,-,ha'⟩
    · exact .inl h
    · cases ha.symm.trans ha'
      exact .inr ⟨head,_,by simp,rfl⟩
  · rcases h with h | ⟨head,stage,-,ha'⟩
    · exact .inl h
    · cases ha.symm.trans ha'
  · rcases h with h | ⟨head,stage',-,ha'⟩
    · left
      cases op with
      | head hd => simp [Wire.flush]
      | _ => exact h
    · cases ha.symm.trans ha'
      left
      simp [Wire.flush]
  · rcases h with h | ⟨head,stage,hs,ha'⟩
    · left
      cases op <;> exact h
    · cases ha.symm.trans ha'
      exact (hs rfl).elim
  · cases hl
  · cases hl

structure Flowing (sender : Sender σ) : Prop where
  opened : sender.Open
  unbroken : sender.wire.closing ≠ some .broken
  begun : Begun sender

theorem step_flowing (h : Flowing sender) {l : SendLabel} (hl : l.orderly = true)
    (hst : sender.step L l = some sender') : Flowing sender' :=
  ⟨step_open h.opened hst,step_unbroken h.unbroken hl hst,step_begun h.begun hl hst⟩

theorem Flowing.pull (h : Flowing sender) (n : ℕ) :
    Flowing { sender with wire := { sender.wire with tape := sender.wire.tape.pull n } } :=
  ⟨h.opened,h.unbroken,h.begun⟩

theorem flowing_respond (head : ResponseHead) (body : Body) : Flowing (.respond head body) :=
  ⟨⟨rfl,by rintro rest ⟨⟩⟩,by rintro ⟨⟩,.inr ⟨head,.queued,by simp,rfl⟩⟩

end

/-! ## What a calm run keeps of both ends -/

section
variable {s t : State}

/-- What a calm run keeps that goes on from any state to its end. -/
structure LiveInv (f : Service) (x : Setup) (s : State) : Prop where
  calm : CalmInv f x s
  client : ClientLive x s.client
  task : ∀ hd, s.handler = some hd → hd.task.phase ≠ .refusing ∧ hd.task.phase ≠ .ended
  responder : Flowing s.responder

theorem client_cases (hu : s.responder.wire.closing ≠ some .broken) {l : Label} (hc : Calm f s l)
    (hst : step x s l = some t) :
    (∃ m, Gentle m ∧ Rpc.step x.request s.client m = some t.client ∧
      ((m = .poll ∨ ∃ n, m = .tick n) → l = .client m)) ∨
    t.client = s.client ∨
    ∃ fw w, s.client.forwarder = some fw ∧ t.client = { s.client with forwarder := some { fw with wire := w } } := by
  have hreceive {g : Wire → RecvHalf → Option (Wire × RecvHalf)} (hst : s.receive g = some t) :
      ∃ fw w, s.client.forwarder = some fw ∧
        t.client = { s.client with forwarder := some { fw with wire := w } } := by
    unfold State.receive at hst
    split at hst
    · rename_i fw hd hf hh
      obtain ⟨⟨w,half⟩,-,rfl⟩ := Option.map_eq_some_iff.mp hst
      exact ⟨fw,w,hf,rfl⟩
    · cases hst
  cases l with
  | client l =>
    simp only [step] at hst
    split at hst
    · rename_i ho
      obtain ⟨client,hcl,rfl⟩ := Option.map_eq_some_iff.mp hst
      refine .inl ⟨l,?_,hcl,fun _ => rfl⟩
      cases l with
      | call e =>
        cases e with
        | responded r =>
          cases r with
          | ok head => trivial
          | error m => exact hc.elim
        | _ => trivial
      | timeout => exact hc.elim
      | dropCall => exact hc.elim
      | dropBody => exact hc.elim
      | arriveEnd e => cases ho
      | _ => trivial
    · cases hst
  | respond =>
    obtain ⟨head,-,hst⟩ := Option.bind_eq_some_iff.mp hst
    obtain ⟨client,hcl,rfl⟩ := Option.map_eq_some_iff.mp hst
    exact .inl ⟨.call (.responded (.ok head)),trivial,hcl,by simp⟩
  | accept =>
    simp only [step] at hst
    split at hst
    · cases hst
      exact .inr (.inl rfl)
    · cases hst
  | serve m =>
    obtain ⟨hd,-,hst⟩ := Option.bind_eq_some_iff.mp hst
    obtain ⟨hd',-,rfl⟩ := Option.map_eq_some_iff.mp hst
    exact .inr (.inl rfl)
  | read =>
    obtain ⟨hd,-,hst⟩ := Option.bind_eq_some_iff.mp hst
    obtain ⟨hd',-,rfl⟩ := Option.map_eq_some_iff.mp hst
    exact .inr (.inl rfl)
  | requestBytes n =>
    simp only [step] at hst
    exact .inr (.inr (hreceive hst))
  | requestEnd m =>
    simp only [step] at hst
    exact .inr (.inr (hreceive hst))
  | requestLost m => exact hc.elim
  | responseBytes n =>
    obtain ⟨chunk,-,hst⟩ := Option.bind_eq_some_iff.mp hst
    obtain ⟨client,hcl,rfl⟩ := Option.map_eq_some_iff.mp hst
    exact .inl ⟨.arrive _,trivial,hcl,by simp⟩
  | responseEnd m =>
    simp only [step] at hst
    split at hst
    · rename_i c hcl
      split at hst
      · obtain ⟨client,hst',rfl⟩ := Option.map_eq_some_iff.mp hst
        refine .inl ⟨.arriveEnd (c.arrival m),?_,hst',by simp⟩
        cases c with
        | broken => exact (hu hcl).elim
        | fin => trivial
        | trailers tr => trivial
      · cases hst
    · cases hst
  | responseLost m => exact hc.elim

/-- A task that is served in calm neither refuses nor ends without an answer. -/
theorem serve_task {hd hd' : Handler} {m : RequestLabel} (hc : Calm f s (.serve m)) (hserve : hd.serve m = some hd') :
    hd'.task.phase ≠ .refusing ∧ hd'.task.phase ≠ .ended := by
  have htask : ∃ task, hd.task.step m = some task ∧ hd'.task = task := by
    obtain ⟨task,htask,⟨rfl,-⟩ | ⟨head,body,-,-,rfl⟩⟩ := serve_cases hserve
    · exact ⟨task,htask,rfl⟩
    · exact ⟨task,htask,rfl⟩
  obtain ⟨task,hst,he⟩ := htask
  rw [he]
  cases m with
  | start =>
    cases hp : hd.task.phase <;> simp only [RequestTask.step,hp,reduceCtorEq] at hst
    cases hst
    exact ⟨by simp,by simp⟩
  | ready ok =>
    cases hp : hd.task.phase <;> simp only [RequestTask.step,hp,reduceCtorEq] at hst
    cases hst
    cases (show ok = true from hc)
    exact ⟨by simp,by simp⟩
  | called r =>
    obtain ⟨h₀,-,-,-,rfl⟩ := hc
    cases hp : hd.task.phase <;> simp only [RequestTask.step,hp,reduceCtorEq] at hst
    cases hst
    exact ⟨by simp,by simp⟩
  | refused ok => exact hc.elim
  | send l =>
    simp only [RequestTask.step] at hst
    split at hst
    · cases hst
    · obtain ⟨sender,-,rfl⟩ := Option.map_eq_some_iff.mp hst
      exact ⟨by simp,by simp⟩
    · cases hst
  | panic => exact hc.elim

theorem step_liveInv (h : LiveInv f x s) {l : Label} (hc : Calm f s l) (hst : step x s l = some t) :
    LiveInv f x t := by
  have hcalm := step_calmInv h.calm hc hst
  have hclient : ClientLive x t.client := by
    rcases client_cases h.responder.unbroken hc hst with ⟨m,hm,hcl,-⟩ | hcl | ⟨fw,w,-,hcl⟩
    · exact step_clientLive h.calm.inv.opened.halves h.client hm hcl
    · rw [hcl]
      exact h.client
    · rw [hcl]
      exact ⟨h.client.undropped,h.client.body,h.client.returned,h.client.timer,h.client.reader⟩
  have hR := h.responder
  rcases handler_cases hst with hh | ⟨hn,hh⟩ | ⟨m,hd,hd',rfl,hs,hserve,hh⟩ | ⟨hd,body,read,hs,hh⟩ | ⟨n,hh⟩
  · refine ⟨hcalm,hclient,?_,?_⟩
    · rw [hh]
      exact h.task
    · unfold State.responder at hR ⊢
      rw [hh]
      exact hR
  · refine ⟨hcalm,hclient,fun hd hhd => ?_,?_⟩
    · cases hh.symm.trans hhd
      exact ⟨by rintro ⟨⟩,by rintro ⟨⟩⟩
    · simp only [State.responder,hh]
      exact flowing_respond ⟨500,[]⟩ _
  · refine ⟨hcalm,hclient,fun hd₁ hhd => ?_,?_⟩
    · cases hh.symm.trans hhd
      exact serve_task hc hserve
    · simp only [State.responder,hs] at hR
      simp only [State.responder,hh]
      cases ((h.calm.inv.handler hd hs).serve hserve).2 with
      | same hr ha =>
        rw [hr]
        exact hR
      | moves m' hm hst' hne ha =>
        rcases hm with rfl | rfl
        · exact step_flowing hR hc hst'
        · exact hc.elim
      | answers head body hl hb hi ha hr =>
        rw [hr]
        exact flowing_respond head body
      | ends hl hi ha hs ht =>
        rcases hl with ⟨ok,rfl⟩ | rfl
        · exact hc.elim
        · exact hc.elim
  · refine ⟨hcalm,hclient,fun hd₁ hhd => ?_,?_⟩
    · cases hh.symm.trans hhd
      exact h.task hd hs
    · simp only [State.responder,hs] at hR
      simp only [State.responder,hh]
      exact hR
  · cases hs : s.handler with
    | none =>
      rw [hs,Option.map_none] at hh
      simp only [State.responder,hs] at hR
      refine ⟨hcalm,hclient,fun hd hhd => ?_,?_⟩
      · cases hh.symm.trans hhd
      · simp only [State.responder,hh]
        exact hR
    | some hd =>
      rw [hs,Option.map_some] at hh
      simp only [State.responder,hs] at hR
      refine ⟨hcalm,hclient,fun hd₁ hhd => ?_,?_⟩
      · cases hh.symm.trans hhd
        have hp := h.task hd hs
        unfold pullTask
        split
        · exact ⟨by simp,by simp⟩
        · exact hp
      · simp only [State.responder,hh,responderOf_pull]
        exact hR.pull n

/-- What a calm run has sent of the request, it has sent in good order. -/
theorem LiveInv.upload (h : LiveInv f x s) (hb : ∀ e, x.ending ≠ .error e) {fw : Sender Forwarder}
    (hf : s.client.forwarder = some fw) : Smooth (.new x.frames x.ending) (s.uploadOf fw) ∧ Silent fw := by
  obtain ⟨ms,hms,hrun⟩ := h.calm.request fw hf
  have hall := exec_invariant_of_labels
    (I := fun u : Transfer Forwarder => Smooth (.new x.frames x.ending) u ∧ Silent u.sender) ?_
    ⟨smooth_upload x.frames x.ending,by rintro e ⟨⟩⟩ hms hrun
  · rw [uploadOf_sender] at hall
    exact hall
  · rintro u l v ⟨hu,hs⟩ hl hst
    refine ⟨step_smooth hu hl hst,?_⟩
    rcases Transfer.step_sender hst with ⟨m,sender,rfl,hsend,rfl⟩ | ⟨-,he | ⟨n,he⟩⟩
    · exact step_silent hs hu.inv.sender hb hl hsend
    · rw [he]
      exact hs
    · rw [he]
      exact hs

/-! ## Going on in time -/

def InTime (x : Setup) (s : State) : Prop := ∀ d, x.deadline = some d → s.client.now < d

def Prompt (f : Service) (s : State) (l : Label) : Prop := Calm f s l ∧ ∀ n, l ≠ .client (.tick n)

structure Going (f : Service) (x : Setup) (s : State) : Prop where
  live : LiveInv f x s
  inTime : InTime x s
  underway : Underway s.client

theorem step_inTime (h : InTime x s) (hL : LiveInv f x s) {l : Label} (hc : Prompt f s l)
    (hst : step x s l = some t) : InTime x t := by
  have hnow : t.client.now = s.client.now := by
    rcases client_cases hL.responder.unbroken hc.1 hst with ⟨m,-,hcl,hm⟩ | hcl | ⟨fw,w,-,hcl⟩
    · refine Rpc.step_now (fun n hn => hc.2 n ?_) hcl
      rw [hm (.inr ⟨n,hn⟩),hn]
    · rw [hcl]
    · rw [hcl]
  intro d hd
  rw [hnow]
  exact h d hd

theorem step_going (h : Going f x s) {l : Label} (hc : Prompt f s l) (hst : step x s l = some t) :
    Going f x t := by
  refine ⟨step_liveInv h.live hc.1 hst,step_inTime h.inTime h.live hc hst,?_⟩
  rcases client_cases h.live.responder.unbroken hc.1 hst with ⟨m,hm,hcl,-⟩ | hcl | ⟨fw,w,-,hcl⟩
  · exact step_underway h.underway hm hcl
  · rw [hcl]
    exact h.underway
  · rw [hcl]
    exact h.underway

/-- A call under way goes on wherever prompt steps can lead it. -/
theorem Going.reaches {P : State → Prop} (h : Going f x s) (hP : CanMeet (step x) (Prompt f) P s) :
    CanMeet (step x) (Prompt f) (fun t => Going f x t ∧ P t) s :=
  hP.along (fun _ _ _ hs hc hst => step_going hs hc hst) h

end

end GrpcQuic.RoundTrip
