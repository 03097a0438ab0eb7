import GrpcQuic.Exchange.RoundTripRequest

/-! # The response half of the stream

Behind what the client has read there is a reading of the wire of the response.
What is not from there is the end, an error or the status of an elapsed deadline.
-/
namespace GrpcQuic.RoundTrip
open Transition Server
variable {x : Setup} {s t : State}

def HeadInv {σ : Type*} (head : ResponseHead) (sender : Sender σ) : Prop :=
  (∀ h stage, sender.await = .send (.head h) stage → h = head) ∧
    ∀ h, sender.wire.head = some h → h = head

theorem exit_head {σ : Type*} (L : SendLoop σ) (sender : Sender σ) (r : Exit × σ) :
    (sender.exit L r).wire.head = sender.wire.head ∧
      ∀ h stage, (sender.exit L r).await ≠ .send (.head h) stage := by
  obtain ⟨e,loop⟩ := r
  cases e <;> exact ⟨rfl,nofun⟩

/-- What a task does to the head on its wire: only the flush of one puts one there. -/
theorem step_head {σ : Type*} {L : SendLoop σ} {sender sender' : Sender σ} {head : ResponseHead}
    (h : HeadInv head sender) {l : SendLabel} (hst : sender.step L l = some sender') :
    HeadInv head sender' ∧ (sender.wire.head ≠ none → sender'.wire.head ≠ none) := by
  have hkeep {u : Sender σ} (hw : u.wire.head = sender.wire.head)
      (ha : ∀ h stage, u.await ≠ .send (.head h) stage) :
      HeadInv head u ∧ (sender.wire.head ≠ none → u.wire.head ≠ none) := by
    refine ⟨⟨fun h stage hh => (ha h stage hh).elim,?_⟩,?_⟩
    · rw [hw]
      exact h.2
    · rw [hw]
      exact fun hne => hne
  rcases step_cases hst with ⟨rfl,ha,rfl⟩ | ⟨rfl,op,hop,ha,rfl⟩ | ⟨n,d,rest,rfl,ha,rfl⟩ |
    ⟨rfl,hc,op,stage,ha,hu,rfl⟩ | ⟨rfl,op,ha,rfl⟩ | ⟨m,op,stage,rfl,ha,hne,rfl⟩ | ⟨rfl,⟨ha,rfl⟩ | rfl⟩
  · unfold Sender.onFrame
    split
    · exact hkeep rfl nofun
    · exact hkeep rfl nofun
    · exact hkeep (exit_head ..).1 (exit_head ..).2
    · exact hkeep (exit_head ..).1 (exit_head ..).2
  · refine ⟨⟨fun hd stage hh => ?_,h.2⟩,fun hne => hne⟩
    cases hh
    exact h.1 hd _ ha
  · exact hkeep rfl nofun
  · cases op with
    | head hd =>
      have hhd := h.1 hd _ ha
      refine ⟨⟨fun hd' stage' hh => ?_,fun hd' hh => ?_⟩,fun _ => nofun⟩
      · cases hh
        exact hhd
      · cases hh
        exact hhd
    | data d => exact hkeep rfl nofun
    | trailers tr => exact hkeep rfl nofun
    | finish => exact hkeep rfl nofun
  · cases op with
    | head hd => exact hkeep rfl nofun
    | data d => exact hkeep rfl nofun
    | trailers tr => exact hkeep rfl nofun
    | finish => exact hkeep rfl nofun
  · cases op with
    | head hd => exact hkeep rfl nofun
    | data d => exact hkeep (exit_head ..).1 (exit_head ..).2
    | trailers tr => exact hkeep rfl nofun
    | finish => exact hkeep rfl nofun
  · exact hkeep rfl fun hd stage hh => nomatch ha.symm.trans hh
  · exact hkeep rfl nofun

/-- A task responds exactly when the service has answered, with that head and body;
without an answer it has sent the head of a refusal at most. -/
inductive HandlerInv (h : Handler) : Prop where
  | unanswered (ha : h.answer = none) (hp : ∀ sender, h.task.phase ≠ .responding sender)
    (hs : h.task.sent = [] ∨ h.task.phase = .ended ∧ h.task.sent = [.head ⟨500,[]⟩])
  | answered (head : ResponseHead) (body : Body) (sender : Sender ResponseLoop)
    (ha : h.answer = some (head,body)) (hp : h.task.phase = .responding sender)
    (hh : HeadInv head sender)

inductive Serves (h h' : Handler) (l : RequestLabel) : Prop where
  | same (hr : responderOf h'.task = responderOf h.task) (ha : h'.answer = h.answer)
  | moves (m : SendLabel) (hm : l = .send m ∨ l = .panic)
    (hst : (responderOf h.task).step responseLoop m = some (responderOf h'.task))
    (hs : h.answer ≠ none) (ha : h'.answer = h.answer)
  | answers (head : ResponseHead) (body : Body) (hl : l = .called (some (head,body)))
    (hb : body.ended = false) (hi : responderOf h.task = idle) (ha : h'.answer = some (head,body))
    (hr : responderOf h'.task = .respond head body)
  | ends (hl : (∃ ok, l = .refused ok) ∨ l = .panic) (hi : responderOf h.task = idle)
    (ha : h'.answer = none) (hs : SenderInv (.new [] .clean) (responderOf h'.task))
    (ht : (responderOf h'.task).wire.tape = .empty)

theorem handlerInv_new (head : RequestHead) (path : String) : HandlerInv (.new head path) :=
  .unanswered rfl (by rintro sender ⟨⟩) (.inl rfl)

theorem senderInv_respond (head : ResponseHead) {body : Body} (h : body.ended = false) :
    SenderInv body (.respond head body) :=
  ⟨⟨rfl,rfl,fun he => (Bool.false_ne_true (h.symm.trans he)).elim,List.nil_prefix,nofun⟩,
    fun _ => rfl,rfl,h⟩

/-- Without an answer every phase but the last leaves the send half alone. -/
theorem responderOf_idle {task : RequestTask} (hp : ∀ sender, task.phase ≠ .responding sender)
    (he : task.phase ≠ .ended) : responderOf task = idle := by
  unfold responderOf
  split
  · exact (hp _ ‹_›).elim
  · exact (he ‹_›).elim
  · rfl

theorem senderInv_ended {task : RequestTask} (hp : task.phase = .ended) :
    SenderInv (.new [] .clean) (responderOf task) ∧ (responderOf task).wire.tape = .empty := by
  unfold responderOf
  rw [hp]
  refine ⟨⟨⟨rfl,rfl,fun _ => rfl,List.nil_prefix,nofun⟩,nofun,?_⟩,rfl⟩
  exact Option.some_ne_none _

variable {h h' : Handler} {l : RequestLabel}

/-- A task that has not been answered goes on to its next phase. -/
theorem next_unanswered (ha : h.answer = none) (ha' : h'.answer = none)
    (hp : ∀ sender, h.task.phase ≠ .responding sender) (he : h.task.phase ≠ .ended)
    (hp' : ∀ sender, h'.task.phase ≠ .responding sender) (he' : h'.task.phase ≠ .ended)
    (hs : h'.task.sent = []) : HandlerInv h' ∧ Serves h h' l :=
  ⟨.unanswered ha' hp' (.inl hs),
    .same ((responderOf_idle hp' he').trans (responderOf_idle hp he).symm) (ha'.trans ha.symm)⟩

/-- A task that ends without an answer drops its send half. -/
theorem close_unanswered (ha' : h'.answer = none)
    (hp : ∀ sender, h.task.phase ≠ .responding sender) (he : h.task.phase ≠ .ended)
    (he' : h'.task.phase = .ended) (hs : h'.task.sent = [] ∨ h'.task.sent = [.head ⟨500,[]⟩])
    (hl : (∃ ok, l = .refused ok) ∨ l = .panic) : HandlerInv h' ∧ Serves h h' l := by
  refine ⟨.unanswered ha' ?_ ?_,.ends hl (responderOf_idle hp he) ha' (senderInv_ended he').1
    (senderInv_ended he').2⟩
  · intro sender hp'
    exact nomatch he'.symm.trans hp'
  · rcases hs with hs | hs
    · exact .inl hs
    · exact .inr ⟨he',hs⟩

/-- Unless it has ended without an answer, a task has sent nothing before one. -/
theorem sent_nil (hs : h.task.sent = [] ∨ h.task.phase = .ended ∧ h.task.sent = [.head ⟨500,[]⟩])
    (he : h.task.phase ≠ .ended) : h.task.sent = [] := by
  rcases hs with hs | ⟨hp,-⟩
  · exact hs
  · exact (he hp).elim

theorem serve_unanswered (ha : h.answer = none)
    (hp : ∀ sender, h.task.phase ≠ .responding sender)
    (hs : h.task.sent = [] ∨ h.task.phase = .ended ∧ h.task.sent = [.head ⟨500,[]⟩])
    (hst : h.serve l = some h') : HandlerInv h' ∧ Serves h h' l := by
  have hnil : h.task.phase ≠ .ended → h.task.sent = [] := sent_nil hs
  obtain ⟨task,htask,⟨rfl,hl⟩ | ⟨head,body,rfl,hb,rfl⟩⟩ := serve_cases hst
  · cases l with
    | start =>
      cases hph : h.task.phase <;> simp only [RequestTask.step,hph,reduceCtorEq] at htask
      cases htask
      have he : h.task.phase ≠ .ended := by rw [hph]; simp
      exact next_unanswered ha ha hp he (by rintro sender ⟨⟩) (by rintro ⟨⟩) (hnil he)
    | ready ok =>
      cases hph : h.task.phase <;> simp only [RequestTask.step,hph,reduceCtorEq] at htask
      cases htask
      have he : h.task.phase ≠ .ended := by rw [hph]; simp
      refine next_unanswered ha ha hp he ?_ ?_ (hnil he)
      · intro sender
        cases ok <;> simp
      · cases ok <;> simp
    | called r =>
      cases hph : h.task.phase <;> simp only [RequestTask.step,hph,reduceCtorEq] at htask
      cases r with
      | some r => exact (hl r rfl).elim
      | none =>
        cases htask
        have he : h.task.phase ≠ .ended := by rw [hph]; simp
        exact next_unanswered ha ha hp he (by rintro sender ⟨⟩) (by rintro ⟨⟩) (hnil he)
    | refused ok =>
      cases hph : h.task.phase <;> simp only [RequestTask.step,hph,reduceCtorEq] at htask
      cases htask
      have he : h.task.phase ≠ .ended := by rw [hph]; simp
      refine close_unanswered ha hp he rfl ?_ (.inl ⟨ok,rfl⟩)
      simp only [RequestTask.push,hnil he,List.nil_append]
      cases ok
      · exact .inl rfl
      · exact .inr rfl
    | send m =>
      simp only [RequestTask.step] at htask
      split at htask
      · cases htask
      · exact (hp _ ‹_›).elim
      · cases htask
    | panic =>
      simp only [RequestTask.step] at htask
      split at htask
      · cases htask
      · rename_i hend
        cases htask
        have he : h.task.phase ≠ .ended := by
          intro he
          exact hend (by simp only [RequestTask.ended,he])
        refine close_unanswered ha hp he ?_ (.inl (hnil he)) (.inr rfl)
        simp only [RequestTask.drop]
  · cases hph : h.task.phase <;> simp only [RequestTask.step,hph,reduceCtorEq] at htask
    cases htask
    have he : h.task.phase ≠ .ended := by rw [hph]; simp
    refine ⟨.answered head body _ rfl rfl ⟨?_,by rintro hd ⟨⟩⟩,.answers head body rfl hb (responderOf_idle hp he) rfl rfl⟩
    intro hd stage hh
    cases hh
    rfl

theorem serve_answered {head : ResponseHead} {body : Body}
    {sender : Sender ResponseLoop} (ha : h.answer = some (head,body)) (hp : h.task.phase = .responding sender)
    (hh : HeadInv head sender) (hst : h.serve l = some h') : HandlerInv h' ∧ Serves h h' l := by
  have hr : responderOf h.task = sender := by simp only [responderOf,hp]
  have hne : h.answer ≠ none := by rw [ha]; exact nofun
  obtain ⟨task,htask,⟨rfl,hl⟩ | ⟨head',body',rfl,hb,rfl⟩⟩ := serve_cases hst
  · cases l with
    | send m =>
      have hm : m ≠ .abort := by
        rintro rfl
        simp only [RequestTask.step,hp,reduceCtorEq] at htask
      simp only [RequestTask.step,hp] at htask
      obtain ⟨next,hnext,rfl⟩ := Option.map_eq_some_iff.mp htask
      refine ⟨.answered head body next ha rfl (step_head hh hnext).1,.moves m (.inl rfl) ?_ hne rfl⟩
      rw [hr]
      exact hnext
    | panic =>
      simp only [RequestTask.step] at htask
      split at htask
      · cases htask
      · cases htask
        have hd : h.task.drop.phase = .responding (sender.abort responseLoop) := by
          simp only [RequestTask.drop,hp]
        have hst : sender.step responseLoop .abort = some (sender.abort responseLoop) := rfl
        refine ⟨.answered head body _ ha hd (step_head hh hst).1,.moves .abort (.inr rfl) ?_ hne rfl⟩
        rw [hr]
        simp only [responderOf,hd]
        exact hst
    | start => simp only [RequestTask.step,hp,reduceCtorEq] at htask
    | ready ok => simp only [RequestTask.step,hp,reduceCtorEq] at htask
    | called r => simp only [RequestTask.step,hp,reduceCtorEq] at htask
    | refused ok => simp only [RequestTask.step,hp,reduceCtorEq] at htask
  · simp only [RequestTask.step,hp,reduceCtorEq] at htask

theorem HandlerInv.serve (hI : HandlerInv h)
    (hst : h.serve l = some h') : HandlerInv h' ∧ Serves h h' l := by
  cases hI with
  | unanswered ha hp hs => exact serve_unanswered ha hp hs hst
  | answered head body sender ha hp hh => exact serve_answered ha hp hh hst

/-- What the client's body may yield without having it from the stream. -/
def Injected (r : FrameResult) : Prop :=
  r = none ∨ r = some (.ok (.trailers deadlineTrailers)) ∨ ∃ e, r = some (.error e)

structure Shows (x : Setup) (s : State) (u : Transfer ResponseLoop) : Prop where
  inv : TransferInv (answerBody s.answer) u
  sender : u.sender = s.responder
  stream : ∀ c, s.client.reader x.request = some c → u.body.stream = c.stream
  body : ∀ c, s.client.reader x.request = some c → c.isClosed = false → u.body = c.toServerRecvBody
  data : yieldedData s.client.yielded = yieldedData u.yielded
  kinds : ∀ r ∈ s.client.yielded, r ∈ u.yielded ∨ Injected r

structure Exact (x : Setup) (s : State) (u : Transfer ResponseLoop) : Prop where
  yielded : u.yielded = s.client.yielded
  notClosed : ∀ c, s.client.reader x.request = some c → c.isClosed = false

def Undisturbed (s : State) (l : Label) : Prop :=
  l = .client .poll → ∀ c, s.client.body = .present c →
    c.elapsed s.client.now = false ∧ ∀ e, c.errRx = true → s.client.err ≠ .sent e

variable {u : Transfer ResponseLoop} {client : Rpc.State}

theorem shows_init : Shows x State.init (.init idle) :=
  ⟨transferInv_respond,rfl,nofun,nofun,rfl,nofun⟩

theorem Shows.same (h : Shows x s u) (hr : client.reader x.request = s.client.reader x.request)
    (hy : client.yielded = s.client.yielded) :
    ∃ u', Shows x { s with client } u' ∧ (Exact x s u → Exact x { s with client } u') := by
  refine ⟨u,⟨h.inv,h.sender,?_,?_,?_,?_⟩,fun hE => ⟨?_,?_⟩⟩
  · rw [hr]
    exact h.stream
  · rw [hr]
    exact h.body
  · rw [hy]
    exact h.data
  · rw [hy]
    exact h.kinds
  · rw [hy]
    exact hE.yielded
  · rw [hr]
    exact hE.notClosed

theorem Shows.gone (h : Shows x s u) (hr : client.reader x.request = none)
    (hy : client.yielded = s.client.yielded) :
    ∃ u', Shows x { s with client } u' ∧ (Exact x s u → Exact x { s with client } u') := by
  have hno {p : Prop} (c : ClientRecvBody RecvHalf) (hc : client.reader x.request = some c) : p :=
    nomatch hr.symm.trans hc
  refine ⟨u,⟨h.inv,h.sender,fun c hc => hno c hc,fun c hc => hno c hc,?_,?_⟩,
    fun hE => ⟨?_,fun c hc => hno c hc⟩⟩
  · rw [hy]
    exact h.data
  · rw [hy]
    exact h.kinds
  · rw [hy]
    exact hE.yielded

theorem Shows.inject (h : Shows x s u) {c c' : ClientRecvBody RecvHalf} {r : FrameResult}
    (hc : s.client.reader x.request = some c) (hr : client.reader x.request = some c')
    (hy : client.yielded = s.client.yielded ++ [r]) (hi : Injected r) (hs : c'.stream = c.stream)
    (hb : c'.isClosed = false → c.isClosed = false ∧ c'.toServerRecvBody = c.toServerRecvBody) :
    Shows x { s with client } u := by
  refine ⟨h.inv,h.sender,fun d hd => ?_,fun d hd hcl => ?_,?_,?_⟩
  · cases hr.symm.trans hd
    exact (h.stream c hc).trans hs.symm
  · cases hr.symm.trans hd
    exact (h.body c hc (hb hcl).1).trans (hb hcl).2.symm
  · rw [hy,yieldedData_append,yieldedData_singleton,← h.data]
    rcases hi with rfl | rfl | ⟨e,rfl⟩ <;> exact List.append_nil _
  · rw [hy]
    intro q hq
    rcases List.mem_append.mp hq with hq | hq
    · exact h.kinds q hq
    · cases List.mem_singleton.mp hq
      exact .inr hi

theorem Shows.read (h : Shows x s u) {c c' : ClientRecvBody RecvHalf}
    (hc : s.client.reader x.request = some c) (hcl : c.isClosed = false)
    (hr : client.reader x.request = some c') (hb : c'.toServerRecvBody = c.toServerRecvBody.pollFrame.2)
    (hcl' : c'.isClosed = false)
    (hy : client.yielded = s.client.yielded ++ c.toServerRecvBody.pollFrame.1.toList) :
    ∃ u', Shows x { s with client } u' ∧ (Exact x s u → Exact x { s with client } u') := by
  have hbody := h.body c hc hcl
  have hstep : ∃ u', u.step responseLoop .recv = some u' ∧ u'.sender = u.sender ∧
      u'.body = c.toServerRecvBody.pollFrame.2 ∧
      u'.yielded = u.yielded ++ c.toServerRecvBody.pollFrame.1.toList := by
    simp only [Transfer.step,hbody]
    cases c.toServerRecvBody.pollFrame with
    | mk r body =>
      cases r with
      | ready r => exact ⟨_,rfl,rfl,rfl,rfl⟩
      | pending => exact ⟨_,rfl,rfl,rfl,(List.append_nil _).symm⟩
  obtain ⟨u',hu,hsend,hbody',hy'⟩ := hstep
  refine ⟨u',⟨step_transferInv h.inv hu,hsend.trans h.sender,fun d hd => ?_,fun d hd _ => ?_,?_,?_⟩,
    fun hE => ⟨?_,fun d hd => ?_⟩⟩
  · cases hr.symm.trans hd
    rw [hbody',hb]
  · cases hr.symm.trans hd
    rw [hbody',hb]
  · rw [hy,hy',yieldedData_append,yieldedData_append,h.data]
  · rw [hy,hy']
    intro r hr
    rcases List.mem_append.mp hr with hr | hr
    · rcases h.kinds r hr with hk | hk
      · exact .inl (List.mem_append_left _ hk)
      · exact .inr hk
    · exact .inl (List.mem_append_right _ hr)
  · rw [hy,hy',hE.yielded]
  · cases hr.symm.trans hd
    exact hcl'

theorem Shows.poll (h : Shows x s u) {c : ClientRecvBody RecvHalf} (hb : s.client.body = .present c)
    (hc : s.client.reader x.request = some c)
    (hr : client.reader x.request = some (c.pollFrame s.client.now s.client.err).2)
    (hy : client.yielded = s.client.yielded ++ (c.pollFrame s.client.now s.client.err).1.toList) :
    ∃ u', Shows x { s with client } u' ∧
      (Undisturbed s (.client .poll) → Exact x s u → Exact x { s with client } u') := by
  rcases c.pollFrame_cases s.client.now s.client.err with ⟨hcl,hp⟩ | ⟨hcl,he,-⟩ | ⟨hcl,-,hrx,e,herr,hp⟩ |
    ⟨hcl,-,-,rx,-,hp⟩
  · rw [hp] at hr hy
    refine ⟨u,h.inject hc hr hy (.inl rfl) rfl fun hn => ⟨hn,rfl⟩,fun _ hE => ?_⟩
    exact (Bool.false_ne_true ((hE.notClosed c hc).symm.trans hcl)).elim
  · rw [pollFrame_elapsed s.client.err hcl he] at hr hy
    refine ⟨u,h.inject hc hr hy ?_ rfl nofun,fun hU _ => ?_⟩
    · cases c.trailersDone
      · exact .inr (.inl rfl)
      · exact .inl rfl
    · exact (Bool.false_ne_true ((hU rfl c hb).1.symm.trans he)).elim
  · rw [hp] at hr hy
    refine ⟨u,h.inject hc hr hy (.inr (.inr ⟨e,rfl⟩)) rfl fun hn => ⟨hn,rfl⟩,fun hU _ => ?_⟩
    exact ((hU rfl c hb).2 e hrx herr).elim
  · rw [hp] at hr hy
    obtain ⟨u',hu,hE⟩ := h.read hc hcl hr rfl hcl hy
    exact ⟨u',hu,fun _ => hE⟩

/-- The steps of the client that take nothing from the stream. -/
theorem Shows.of_client (h : Shows x s u) (hO : Opened s) {l : Rpc.Label}
    (hst : Rpc.step x.request s.client l = some client) (hd : ∀ d, l ≠ .arrive d)
    (he : ∀ e, l ≠ .arriveEnd e) :
    ∃ u', Shows x { s with client } u' ∧
      (Undisturbed s (.client l) → Exact x s u → Exact x { s with client } u') := by
  have hall (hex : ∃ u', Shows x { s with client } u' ∧ (Exact x s u → Exact x { s with client } u')) :
      ∃ u', Shows x { s with client } u' ∧
        (Undisturbed s (.client l) → Exact x s u → Exact x { s with client } u') := by
    obtain ⟨u',hu,hE⟩ := hex
    exact ⟨u',hu,fun _ => hE⟩
  cases hO.halves.moves hst with
  | still l hl hf hr hy => exact hall (h.same hr hy)
  | spawn hf hf' hr hy hy' =>
    have hh := hO.accepted hf
    refine ⟨.init idle,⟨?_,?_,fun c hc => ?_,fun c hc _ => ?_,?_,?_⟩,fun _ _ => ⟨?_,fun c hc => ?_⟩⟩
    · simp only [State.answer,hh,Option.bind_none]
      exact transferInv_respond
    · simp only [State.responder,hh]
      rfl
    · cases hr.symm.trans hc
      rfl
    · cases hr.symm.trans hc
      rfl
    · exact congrArg yieldedData hy'
    · rw [hy']
      exact nofun
    · exact hy'.symm
    · cases hr.symm.trans hc
      rfl
  | fail m hf hr hy => exact hall (h.gone hr hy)
  | release l hl hf hr hy => exact hall (h.gone hr hy)
  | forward m f f' hf hsend hf' hr hy => exact hall (h.same hr hy)
  | arrive d c hc he' hf hr hy => exact (hd d rfl).elim
  | arriveEnd e c hc he' hf hr hy => exact (he e rfl).elim
  | poll c hb hc hf hr hy => exact h.poll hb hc hr hy
  | dropBody c hb hf hr hy => exact hall (h.gone hr hy)

theorem pull_empty (n : ℕ) : (Tape.empty : Tape (Option UInt8)).pull n = .empty := by
  simp only [Tape.pull,Tape.next,Tape.empty,List.drop_nil,List.take_nil,List.length_nil,Nat.add_zero]

theorem responderOf_pull (task : RequestTask) (n : ℕ) :
    responderOf (pullTask task n) = { responderOf task with
      wire := { (responderOf task).wire with tape := (responderOf task).wire.tape.pull n } } := by
  cases hp : task.phase with
  | responding sender => simp only [responderOf,pullTask,hp]
  | ended => simp only [responderOf,pullTask,hp,pull_empty]
  | _ => simp only [responderOf,pullTask,hp,idle,Sender.respond,Wire.new,pull_empty]

theorem HandlerInv.pull (hI : HandlerInv h) (n : ℕ) : HandlerInv { h with task := pullTask h.task n } := by
  cases hI with
  | unanswered ha hp hs =>
    have ht : pullTask h.task n = h.task := by
      unfold pullTask
      split
      · exact (hp _ ‹_›).elim
      · rfl
    rw [ht]
    exact .unanswered ha hp hs
  | answered head body sender ha hp hh =>
    have ht : pullTask h.task n = { h.task with phase := .responding { sender with
        wire := { sender.wire with tape := sender.wire.tape.pull n } } } := by
      simp only [pullTask,hp]
    rw [ht]
    exact .answered head body _ ha rfl hh

end GrpcQuic.RoundTrip
