import GrpcQuic.Core.Metrics
import GrpcQuic.Exchange.Verbatim
import GrpcQuic.Server.HandleRequest
import Mathlib.Algebra.BigOperators.Group.List.Basic

/-! # The byte counters

Both sending loops count a data frame when `send_data` has returned `Ok`. The receiving
bodies count nothing: `record_bytes_received` has no caller.
-/
namespace GrpcQuic
open Transition

def Await.inHand : Await → ℕ
  | send (.data data) _ => data.length
  | _ => 0

structure SendLoop.Counts {σ : Type*} (L : SendLoop σ) (count : σ → ℕ) : Prop where
  onData : ∀ s, count (L.onData s) = count s
  dataSent : ∀ s data, count (L.dataSent s data) = count s + data.length
  dataFailed : ∀ s e, count (L.dataFailed s e).2 = count s
  trailersFailed : ∀ s e, count (L.trailersFailed s e) = count s
  bodyFailed : ∀ s e, count (L.bodyFailed s e).2 = count s
  bodyEnded : ∀ s, count (L.bodyEnded s).2 = count s
  finishFailed : ∀ s e, count (L.finishFailed s e) = count s
  left : ∀ s, count (L.left s) = count s

theorem forwarderLoop_counts : forwarderLoop.Counts Forwarder.bytesSent where
  onData _ := rfl
  dataSent _ _ := rfl
  dataFailed _ _ := rfl
  trailersFailed _ _ := rfl
  bodyFailed _ _ := rfl
  bodyEnded _ := rfl
  finishFailed _ _ := rfl
  left _ := rfl

theorem responseLoop_counts : responseLoop.Counts ResponseLoop.bytesSent where
  onData _ := rfl
  dataSent _ _ := rfl
  dataFailed _ _ := rfl
  trailersFailed _ _ := rfl
  bodyFailed _ _ := rfl
  bodyEnded _ := rfl
  finishFailed _ _ := rfl
  left _ := rfl

def Sender.recorded {σ : Type*} (s : Sender σ) (l : SendLabel) : ℕ :=
  ((s.passed l).map fun op => op.payload.length).sum

section Sender
variable {σ : Type*} {L : SendLoop σ} {count : σ → ℕ} {s t : Sender σ}

theorem exit_count (hL : L.Counts count) (s : Sender σ) {r : Exit × σ} (hr : count r.2 = count s.loop) :
    count (s.exit L r).loop = count s.loop := by
  obtain ⟨e,loop⟩ := r
  cases e with
  | finish => exact hr
  | leave => exact (hL.left loop).trans hr

theorem recorded_of_ne_sent {l : SendLabel} (h : l ≠ .sent) (s : Sender σ) : s.recorded l = 0 := by
  unfold Sender.recorded Sender.passed
  cases l <;> first | rfl | exact (h rfl).elim

theorem step_count (hL : L.Counts count) {l : SendLabel} (hst : s.step L l = some t) :
    count t.loop = count s.loop + s.recorded l := by
  rcases step_cases hst with ⟨rfl,ha,rfl⟩ | ⟨rfl,op,-,-,rfl⟩ | ⟨n,d,rest,rfl,-,rfl⟩ |
    ⟨rfl,-,op,stage,-,-,rfl⟩ | ⟨rfl,op,ha,rfl⟩ | ⟨m,op,stage,rfl,-,-,rfl⟩ | ⟨rfl,⟨-,rfl⟩ | rfl⟩
  · rw [recorded_of_ne_sent (by rintro ⟨⟩)]
    unfold Sender.onFrame
    split
    · exact hL.onData _
    · rfl
    · exact exit_count hL _ (hL.bodyFailed _ _)
    · exact exit_count hL _ (hL.bodyEnded _)
  · rw [recorded_of_ne_sent (by rintro ⟨⟩)]
    rfl
  · rw [recorded_of_ne_sent (by rintro ⟨⟩)]
    rfl
  · rw [recorded_of_ne_sent (by rintro ⟨⟩)]
    rfl
  · unfold Sender.recorded Sender.passed
    rw [ha]
    cases op with
    | head head => rfl
    | data data => exact (hL.dataSent _ _).trans (by simp [SendOp.payload])
    | trailers t => exact hL.left _
    | finish => exact hL.left _
  · rw [recorded_of_ne_sent (by rintro ⟨⟩)]
    cases op with
    | head head => exact hL.left _
    | data data => exact exit_count hL _ (hL.dataFailed _ _)
    | trailers t => exact (hL.left _).trans (hL.trailersFailed _ _)
    | finish => exact (hL.left _).trans (hL.finishFailed _ _)
  · rw [recorded_of_ne_sent (by rintro ⟨⟩)]
    rfl
  · rw [recorded_of_ne_sent (by rintro ⟨⟩)]
    exact hL.left _

/-- In an orderly run every byte a body has yielded is counted or in hand. -/
def Handed (count : σ → ℕ) (s : Sender σ) : Prop :=
  count s.loop + s.await.inHand = s.produced.flatten.length

theorem exit_inHand (s : Sender σ) (r : Exit × σ) :
    (s.exit L r).await.inHand = 0 ∧ (s.exit L r).produced = s.produced := by
  obtain ⟨e,loop⟩ := r
  cases e <;> exact ⟨rfl,rfl⟩

theorem step_handed (hL : L.Counts count) (h : Handed count s) {l : SendLabel} (hl : l.orderly = true)
    (hst : s.step L l = some t) : Handed count t := by
  have hcount := step_count hL hst
  unfold Handed at h ⊢
  rcases step_cases hst with ⟨rfl,ha,rfl⟩ | ⟨rfl,op,-,ha,rfl⟩ | ⟨n,d,rest,rfl,ha,rfl⟩ |
    ⟨rfl,-,op,stage,ha,-,rfl⟩ | ⟨rfl,op,ha,rfl⟩ | ⟨m,op,stage,rfl,-,-,-⟩ | ⟨rfl,-⟩
  · rw [recorded_of_ne_sent (by rintro ⟨⟩)] at hcount
    rw [hcount]
    rw [ha] at h
    unfold Sender.onFrame
    split
    · simp only [Await.inHand,List.flatten_append,List.flatten_singleton,List.length_append] at h ⊢
      omega
    · exact h
    · obtain ⟨hz,hp⟩ := exit_inHand (L := L) { s with body := s.body.next.2 } (L.bodyFailed s.loop _)
      rw [hz,hp]
      exact h
    · obtain ⟨hz,hp⟩ := exit_inHand (L := L) { s with body := s.body.next.2 } (L.bodyEnded s.loop)
      rw [hz,hp]
      exact h
  · rw [ha] at h
    cases op <;> exact h
  · rw [ha] at h
    exact h
  · rw [ha] at h
    cases op <;> exact h
  · rw [hcount]
    unfold Sender.recorded Sender.passed
    rw [ha] at h ⊢
    cases op with
    | data data =>
      simp only [Sender.onSent,SendOp.payload,Await.inHand,List.map_cons,List.map_nil,List.sum_cons,
        List.sum_nil] at h ⊢
      omega
    | _ => exact h
  · cases hl
  · cases hl

end Sender

def SendOp.record (role : String) : SendOp → Metrics → Metrics
  | .data bytes => Metrics.recordBytesSent role bytes.length
  | _ => id

def recordSends (role : String) (ops : List SendOp) (m : Metrics) : Metrics :=
  ops.foldl (fun m op => op.record role m) m

theorem record_sent (role role' : String) (op : SendOp) (m : Metrics) :
    (op.record role m).sent role' = m.sent role' + (if role = role' then op.payload.length else 0) ∧
      (op.record role m).bytesReceived = m.bytesReceived := by
  cases op with
  | data data => simp [SendOp.record,Metrics.recordBytesSent,Metrics.sent,SendOp.payload]
  | _ => simp [SendOp.record,SendOp.payload]

theorem recordSends_sent (role role' : String) (ops : List SendOp) (m : Metrics) :
    (recordSends role ops m).sent role' =
        m.sent role' + (if role = role' then (ops.map fun op => op.payload.length).sum else 0) ∧
      (recordSends role ops m).bytesReceived = m.bytesReceived := by
  induction ops generalizing m with
  | nil => simp [recordSends]
  | cons op ops ih =>
    obtain ⟨hsent,hreceived⟩ := ih (op.record role m)
    obtain ⟨hone,hsame⟩ := record_sent role role' op m
    refine ⟨hsent.trans ?_,hreceived.trans hsame⟩
    rw [hone,List.map_cons,List.sum_cons]
    split <;> omega

def TransferLabel.passed {σ : Type*} (s : Sender σ) : TransferLabel → List SendOp
  | send l => s.passed l
  | _ => []

def DownloadLabel.passed {σ : Type*} (s : Sender σ) : DownloadLabel → List SendOp
  | send l => s.passed l
  | _ => []

structure Bodies where
  request : List Bytes
  requestEnding : Ending
  head : ResponseHead
  response : List Bytes
  responseEnding : Ending
  deadline : Option ℕ

structure Exchange where
  bodies : Bodies
  request : Transfer Forwarder
  response : Download

def Exchange.new (b : Bodies) : Exchange where
  bodies := b
  request := upload b.request b.requestEnding
  response := download b.head b.response b.responseEnding b.deadline

structure ByteTraffic where
  exchanges : List Exchange
  metrics : Metrics

inductive ByteLabel where
  | request (i : ℕ) (l : TransferLabel)
  | response (i : ℕ) (l : DownloadLabel)

def ByteLabel.quiet : ByteLabel → Prop
  | .request _ l => l.orderly = true
  | .response _ l => l.orderly = true ∧ ∀ e, l ≠ .forwarderFails e

namespace ByteTraffic

def init (bodies : List Bodies) : ByteTraffic := ⟨bodies.map Exchange.new,.zero⟩

-- `poll_frame` of either receiving body calls none of the functions of the metrics.
def step (s : ByteTraffic) : ByteLabel → Option ByteTraffic
  | .request i l =>
    s.exchanges[i]?.bind fun x => (uploadStep x.request l).map fun request =>
      { exchanges := s.exchanges.set i { x with request }
        metrics := recordSends "client" (l.passed x.request.sender) s.metrics }
  | .response i l =>
    s.exchanges[i]?.bind fun x => (x.response.step l).map fun response =>
      { exchanges := s.exchanges.set i { x with response }
        metrics := recordSends "server" (l.passed x.response.sender) s.metrics }

def requestPayload (bodies : List Bodies) : ℕ := (bodies.map fun b => b.request.flatten.length).sum

def responsePayload (bodies : List Bodies) : ℕ := (bodies.map fun b => b.response.flatten.length).sum

def Finished (s : ByteTraffic) : Prop := ∀ x ∈ s.exchanges,
  x.request.sender.await = .left ∧ none ∈ x.request.yielded ∧
    x.response.sender.await = .left ∧ none ∈ x.response.yielded

/-- No send fails, no task is aborted, no stream is lost and no poll of a client finds
its deadline elapsed or an error. -/
def Calm (s : ByteTraffic) : ByteLabel → Prop
  | .request _ l => l.orderly = true
  | .response i l => l.orderly = true ∧ ∀ x, s.exchanges[i]? = some x → Undisturbed x.response l

def Covered (s : ByteTraffic) : Prop :=
  s.metrics.received "server" ≤ (s.exchanges.map fun x => x.request.sender.produced.flatten.length).sum ∧
    s.metrics.received "client" ≤ (s.exchanges.map fun x => x.response.sender.produced.flatten.length).sum

variable {s t : ByteTraffic} {bodies : List Bodies}

theorem transfer_step_sent {x y : Transfer Forwarder} {l : TransferLabel} (h : uploadStep x l = some y) :
    y.sender.loop.bytesSent =
      x.sender.loop.bytesSent + ((l.passed x.sender).map fun op => op.payload.length).sum := by
  rcases Transfer.step_sender h with ⟨m,sender,rfl,hs,rfl⟩ | ⟨hl,hy⟩
  · exact step_count forwarderLoop_counts hs
  · have hnone : l.passed x.sender = [] := by
      cases l with
      | send m => exact (hl m rfl).elim
      | _ => rfl
    rw [hnone]
    rcases hy with hy | ⟨n,hy⟩ <;> rw [hy] <;> rfl

theorem download_step_sender {x y : Download} {l : DownloadLabel} (h : x.step l = some y) :
    (∃ m sender, l = .send m ∧ x.sender.step responseLoop m = some sender ∧ y.sender = sender) ∨
    ((∀ m, l ≠ .send m) ∧ (y.sender = x.sender ∨ ∃ n, y.sender =
      { x.sender with wire := { x.sender.wire with tape := x.sender.wire.tape.pull n } })) := by
  cases l with
  | send m =>
    obtain ⟨sender,hs,rfl⟩ := Option.map_eq_some_iff.mp h
    exact .inl ⟨m,sender,rfl,hs,rfl⟩
  | deliver n =>
    obtain ⟨⟨wire,half⟩,hd,rfl⟩ := Option.map_eq_some_iff.mp h
    obtain ⟨-,chunk,-,rfl,rfl⟩ := deliver_cases hd
    exact .inr ⟨by rintro _ ⟨⟩,.inr ⟨(frameCells chunk).length,rfl⟩⟩
  | deliverEnd m =>
    obtain ⟨half,-,rfl⟩ := Option.map_eq_some_iff.mp h
    exact .inr ⟨by rintro _ ⟨⟩,.inl rfl⟩
  | lose m =>
    obtain ⟨half,-,rfl⟩ := Option.map_eq_some_iff.mp h
    exact .inr ⟨by rintro _ ⟨⟩,.inl rfl⟩
  | recv =>
    simp only [Download.step] at h
    split at h <;> cases h <;> exact .inr ⟨by rintro _ ⟨⟩,.inl rfl⟩
  | _ =>
    cases h
    exact .inr ⟨by rintro _ ⟨⟩,.inl rfl⟩

theorem download_step_sent {x y : Download} {l : DownloadLabel} (h : x.step l = some y) :
    y.sender.loop.bytesSent =
      x.sender.loop.bytesSent + ((l.passed x.sender).map fun op => op.payload.length).sum := by
  rcases download_step_sender h with ⟨m,sender,rfl,hs,hy⟩ | ⟨hl,hy⟩
  · rw [hy]
    exact step_count responseLoop_counts hs
  · have hnone : l.passed x.sender = [] := by
      cases l with
      | send m => exact (hl m rfl).elim
      | _ => rfl
    rw [hnone]
    rcases hy with hy | ⟨n,hy⟩ <;> rw [hy] <;> rfl

theorem step_cases {l : ByteLabel} (h : s.step l = some t) :
    (∃ i m x request, l = .request i m ∧ s.exchanges[i]? = some x ∧ uploadStep x.request m = some request ∧
      t = ⟨s.exchanges.set i { x with request },recordSends "client" (m.passed x.request.sender) s.metrics⟩) ∨
    (∃ i m x response, l = .response i m ∧ s.exchanges[i]? = some x ∧ x.response.step m = some response ∧
      t = ⟨s.exchanges.set i { x with response },
        recordSends "server" (m.passed x.response.sender) s.metrics⟩) := by
  cases l with
  | request i m =>
    obtain ⟨x,hx,hnext⟩ := Option.bind_eq_some_iff.mp h
    obtain ⟨request,hm,rfl⟩ := Option.map_eq_some_iff.mp hnext
    exact .inl ⟨i,m,x,request,rfl,hx,hm,rfl⟩
  | response i m =>
    obtain ⟨x,hx,hnext⟩ := Option.bind_eq_some_iff.mp h
    obtain ⟨response,hm,rfl⟩ := Option.map_eq_some_iff.mp hnext
    exact .inr ⟨i,m,x,response,rfl,hx,hm,rfl⟩

structure Totals (bodies : List Bodies) (s : ByteTraffic) : Prop where
  bodies : s.exchanges.map Exchange.bodies = bodies
  client : s.metrics.sent "client" = (s.exchanges.map fun x => x.request.sender.loop.bytesSent).sum
  server : s.metrics.sent "server" = (s.exchanges.map fun x => x.response.sender.loop.bytesSent).sum
  received : s.metrics.bytesReceived = []

theorem totals_init (bodies : List Bodies) : Totals bodies (init bodies) := by
  have hzero (f : Exchange → ℕ) (hf : ∀ b, f (.new b) = 0) : (((init bodies).exchanges).map f).sum = 0 := by
    rw [List.sum_eq_zero_iff_forall_eq_nat]
    intro n hn
    obtain ⟨x,hx,rfl⟩ := List.mem_map.mp hn
    obtain ⟨b,-,rfl⟩ := List.mem_map.mp hx
    exact hf b
  refine ⟨?_,(hzero _ fun _ => rfl).symm,(hzero _ fun _ => rfl).symm,rfl⟩
  exact (List.map_map ..).trans (List.map_id bodies)

theorem map_set_same {α β : Type*} (f : α → β) {l : List α} {i : ℕ} {a x : α} (hi : l[i]? = some a)
    (hx : f x = f a) : (l.set i x).map f = l.map f := by
  obtain ⟨hlt,rfl⟩ := List.getElem?_eq_some_iff.mp hi
  rw [List.map_set,hx,← List.getElem_map f (h := by rw [List.length_map]; exact hlt),List.set_getElem_self]

section Counters
variable {m : Metrics} {xs : List Exchange} {x y : Exchange} {i : ℕ} {role role' : String} {f : Exchange → ℕ}
  {ops : List SendOp}

/-- The counter of a role moves with the count of the exchange that takes the step. -/
theorem sent_moved (h : m.sent role = (xs.map f).sum) (hx : xs[i]? = some x)
    (hgrow : f y = f x + (ops.map fun op => op.payload.length).sum) :
    (recordSends role ops m).sent role = ((xs.set i y).map f).sum := by
  have hset := sum_map_set_add f hx y
  rw [(recordSends_sent role role ops m).1,if_pos rfl,h]
  omega

theorem sent_kept (h : m.sent role' = (xs.map f).sum) (hx : xs[i]? = some x) (hne : role ≠ role')
    (hsame : f y = f x) : (recordSends role ops m).sent role' = ((xs.set i y).map f).sum := by
  rw [(recordSends_sent role role' ops m).1,if_neg hne,h,map_set_same f hx hsame]
  rfl

end Counters

theorem step_totals (h : Totals bodies s) {l : ByteLabel} (hst : s.step l = some t) : Totals bodies t := by
  rcases step_cases hst with ⟨i,m,x,request,-,hx,hm,rfl⟩ | ⟨i,m,x,response,-,hx,hm,rfl⟩
  · constructor
    · exact (map_set_same Exchange.bodies hx (x := { x with request }) rfl).trans h.bodies
    · exact sent_moved h.client hx (transfer_step_sent hm)
    · exact sent_kept h.server hx (by decide) rfl
    · exact (recordSends_sent "client" "client" _ _).2.trans h.received
  · constructor
    · exact (map_set_same Exchange.bodies hx (x := { x with response }) rfl).trans h.bodies
    · exact sent_kept h.client hx (by decide) rfl
    · exact sent_moved h.server hx (download_step_sent hm)
    · exact (recordSends_sent "server" "server" _ _).2.trans h.received

structure Undisrupted (x : Exchange) : Prop where
  request : Smooth (.new x.bodies.request x.bodies.requestEnding) x.request
  requestWire : Promises (.new x.bodies.request x.bodies.requestEnding) x.request.sender
  requestHanded : Handed Forwarder.bytesSent x.request.sender
  response : ∃ u, Smooth (.new x.bodies.response x.bodies.responseEnding) u ∧
    Promises (.new x.bodies.response x.bodies.responseEnding) u.sender ∧ Refines x.response u ∧ Exact x.response u
  responseHanded : Handed ResponseLoop.bytesSent x.response.sender

theorem undisrupted_new (b : Bodies) : Undisrupted (.new b) where
  request := smooth_upload b.request b.requestEnding
  requestWire := promises_forward b.request b.requestEnding
  requestHanded := rfl
  response := ⟨_,smooth_respond,promises_respond b.head b.response b.responseEnding,refines_download,rfl,rfl⟩
  responseHanded := rfl

theorem Undisrupted.stepRequest {x : Exchange} (h : Undisrupted x) {l : TransferLabel} (hl : l.orderly = true)
    {request : Transfer Forwarder} (hst : uploadStep x.request l = some request) :
    Undisrupted { x with request } := by
  have hrun : exec uploadStep x.request [l] = some request := by simp [hst]
  refine { h with
    request := step_smooth h.request hl hst
    requestWire := transfer_promises h.requestWire (by simpa using hl) hrun
    requestHanded := ?_ }
  rcases Transfer.step_sender hst with ⟨m,sender,rfl,hs,rfl⟩ | ⟨-,hy | ⟨n,hy⟩⟩
  · exact step_handed forwarderLoop_counts h.requestHanded hl hs
  · exact hy ▸ h.requestHanded
  · exact hy ▸ h.requestHanded

theorem Undisrupted.stepResponse {x : Exchange} (h : Undisrupted x) {l : DownloadLabel}
    (hl : l.orderly = true) (hU : Undisturbed x.response l) {response : Download}
    (hst : x.response.step l = some response) : Undisrupted { x with response } := by
  obtain ⟨u,hu,hP,hR,hE⟩ := h.response
  obtain ⟨ms,v,hms,hord,hR',hE',-⟩ := step_refines hu.inv hR hst
  have hv := exec_invariant_of_labels (fun _ _ _ hs hl hst => step_smooth hs hl hst) hu (hord hl) hms
  refine { h with
    response := ⟨v,hv,transfer_promises hP (hord hl) hms,hR',hE' hU hE⟩
    responseHanded := ?_ }
  rcases download_step_sender hst with ⟨m,sender,rfl,hs,hy⟩ | ⟨-,hy | ⟨n,hy⟩⟩
  · exact hy ▸ step_handed responseLoop_counts h.responseHanded hl hs
  · exact hy ▸ h.responseHanded
  · exact hy ▸ h.responseHanded

/-- What holds of every exchange still does, when the steps of both directions keep it. -/
theorem forall_exchanges_step {P : Exchange → Prop} (hP : ∀ x ∈ s.exchanges, P x) {l : ByteLabel}
    (hst : s.step l = some t)
    (hrequest : ∀ i m x request, l = .request i m → s.exchanges[i]? = some x → P x →
      uploadStep x.request m = some request → P { x with request })
    (hresponse : ∀ i m x response, l = .response i m → s.exchanges[i]? = some x → P x →
      x.response.step m = some response → P { x with response }) : ∀ x ∈ t.exchanges, P x := by
  intro y hy
  rcases step_cases hst with ⟨i,m,x,request,hl,hx,hm,rfl⟩ | ⟨i,m,x,response,hl,hx,hm,rfl⟩
  · rcases List.mem_or_eq_of_mem_set hy with hy | rfl
    · exact hP y hy
    · exact hrequest i m x request hl hx (hP x (List.mem_of_getElem? hx)) hm
  · rcases List.mem_or_eq_of_mem_set hy with hy | rfl
    · exact hP y hy
    · exact hresponse i m x response hl hx (hP x (List.mem_of_getElem? hx)) hm

theorem step_undisrupted (h : ∀ x ∈ s.exchanges, Undisrupted x) {l : ByteLabel} (hc : s.Calm l)
    (hst : s.step l = some t) : ∀ x ∈ t.exchanges, Undisrupted x := by
  apply forall_exchanges_step h hst
  · rintro i m x request rfl - hx hm
    exact hx.stepRequest hc hm
  · rintro i m x response rfl hi hx hm
    exact hx.stepResponse hc.1 (hc.2 x hi) hm

/-- A sound task that is over has counted its whole body. -/
theorem counted_of_left {σ : Type*} (count : σ → ℕ) {b : Body} {s : Sender σ} (h : Sound b s) (hP : Promises b s)
    (hH : Handed count s) (hl : s.await = .left) : count s.loop = b.data.length := by
  have haw := h.inv.await
  unfold Sender.AwaitInv at haw
  rw [hl] at haw
  obtain ⟨c,hc⟩ := Option.ne_none_iff_exists'.mp haw
  obtain ⟨he,-⟩ := hP.whole c hc fun hb => h.unbroken (hb ▸ hc)
  have hstock := h.inv.stock
  rw [h.inv.drained he,List.append_nil] at hstock
  unfold Handed at hH
  rw [hl,hstock] at hH
  exact hH

theorem Undisrupted.counted {x : Exchange} (h : Undisrupted x) (hr : x.request.sender.await = .left)
    (hs : x.response.sender.await = .left) :
    x.request.sender.loop.bytesSent = x.bodies.request.flatten.length ∧
      x.response.sender.loop.bytesSent = x.bodies.response.flatten.length := by
  refine ⟨counted_of_left Forwarder.bytesSent h.request.sound h.requestWire h.requestHanded hr,?_⟩
  obtain ⟨u,hu,hP,hR,-⟩ := h.response
  have hsame := hR.sender
  have hcount := counted_of_left ResponseLoop.bytesSent hu.sound hP (hsame ▸ h.responseHanded) (hsame ▸ hs)
  rw [hsame] at hcount
  exact hcount

theorem Totals.covered (h : Totals bodies s) : s.Covered := by
  unfold Covered Metrics.received
  rw [h.received]
  exact ⟨Nat.zero_le _,Nat.zero_le _⟩

/-- What each side counts as sent is the payload, and the other side counts the same as
received; on the way nobody counts more than there is. -/
structure BytesConserved (bodies : List Bodies) (ls : List ByteLabel) (s : ByteTraffic) : Prop where
  requestsSent : s.metrics.sent "client" = requestPayload bodies
  requestsReceived : s.metrics.received "server" = requestPayload bodies
  responsesSent : s.metrics.sent "server" = responsePayload bodies
  responsesReceived : s.metrics.received "client" = responsePayload bodies
  covered : Always step Covered (init bodies) ls

/-- In every calm run to the end the bytes sent are the whole payload. No byte is ever
counted as received, so the bytes are conserved only where there are none. -/
theorem bytes_conserved_iff (bodies : List Bodies) {ls : List ByteLabel}
    (h : exec step (init bodies) ls = some s) (hcalm : Meets step Calm (init bodies) ls)
    (hfin : s.Finished) :
    s.metrics.sent "client" = requestPayload bodies ∧ s.metrics.sent "server" = responsePayload bodies ∧
      (BytesConserved bodies ls s ↔ requestPayload bodies = 0 ∧ responsePayload bodies = 0) := by
  have htotals : Totals bodies s :=
    exec_invariant (fun _ _ _ hu hst => step_totals hu hst) (totals_init bodies) h
  have hall : ∀ x ∈ s.exchanges, Undisrupted x := by
    refine exec_invariant_of_meets (fun _ _ _ hu hc hst => step_undisrupted hu hc hst) ?_ hcalm h
    intro x hx
    obtain ⟨b,-,rfl⟩ := List.mem_map.mp hx
    exact undisrupted_new b
  have hcount (x : Exchange) (hx : x ∈ s.exchanges) := by
    obtain ⟨hr,-,hs,-⟩ := hfin x hx
    exact (hall x hx).counted hr hs
  have hclient : s.metrics.sent "client" = requestPayload bodies := by
    rw [htotals.client,requestPayload,← htotals.bodies,List.map_map]
    exact congrArg List.sum (List.map_congr_left fun x hx => (hcount x hx).1)
  have hserver : s.metrics.sent "server" = responsePayload bodies := by
    rw [htotals.server,responsePayload,← htotals.bodies,List.map_map]
    exact congrArg List.sum (List.map_congr_left fun x hx => (hcount x hx).2)
  have hnone (role : String) : s.metrics.received role = 0 := by
    rw [Metrics.received,htotals.received]
    rfl
  refine ⟨hclient,hserver,fun hb => ?_,fun hz => ?_⟩
  · exact ⟨hb.requestsReceived.symm.trans (hnone _),hb.responsesReceived.symm.trans (hnone _)⟩
  · have hcovered : Always step Covered (init bodies) ls :=
      always_of_invariant (fun _ _ _ hu hst => step_totals hu hst) (fun _ hu => hu.covered)
        (totals_init bodies)
    exact ⟨hclient,(hnone _).trans hz.1.symm,hserver,(hnone _).trans hz.2.symm,hcovered⟩

def Silent (d : Download) : Prop := d.client.deadline = none ∧ ∀ e, d.err ≠ .sent e

theorem step_silent {x y : Download} (h : Silent x) {l : DownloadLabel} (hl : ∀ e, l ≠ .forwarderFails e)
    (hst : x.step l = some y) : Silent y := by
  cases l with
  | send m => obtain ⟨sender,-,rfl⟩ := Option.map_eq_some_iff.mp hst; exact h
  | deliver n => obtain ⟨wh,-,rfl⟩ := Option.map_eq_some_iff.mp hst; exact h
  | deliverEnd m => obtain ⟨half,-,rfl⟩ := Option.map_eq_some_iff.mp hst; exact h
  | lose m => obtain ⟨half,-,rfl⟩ := Option.map_eq_some_iff.mp hst; exact h
  | forwarderFails e => exact (hl e rfl).elim
  | forwarderEnds =>
    cases hst
    refine ⟨h.1,fun e he => ?_⟩
    cases hx : x.err with
    | sent e' => exact h.2 e' hx
    | empty => rw [hx] at he; cases he
    | closed => rw [hx] at he; cases he
  | tick n => cases hst; exact h
  | recv =>
    have hd := x.client.pollFrame_deadline x.now x.err
    simp only [Download.step] at hst
    cases hp : x.client.pollFrame x.now x.err with
    | mk r client =>
      rw [hp] at hst hd
      cases r <;> cases hst <;> exact ⟨hd.trans h.1,h.2⟩

theorem calm_of_quiet {ls : List ByteLabel} (hb : ∀ b ∈ bodies, b.deadline = none)
    (hq : ∀ l ∈ ls, l.quiet) : Meets step Calm (init bodies) ls := by
  refine meets_of_labels (I := fun u => ∀ x ∈ u.exchanges, Silent x.response) ?_ ?_ ?_ hq
  · intro u l v hu hl hst
    apply forall_exchanges_step hu hst
    · exact fun i m x request _ _ hx _ => hx
    · rintro i m x response rfl - hx hm
      exact step_silent hx hl.2 hm
  · intro u l hu hl
    cases l with
    | request i m => exact hl
    | response i m =>
      refine ⟨hl.1,fun x hx _ => ?_⟩
      obtain ⟨hd,he⟩ := hu x (List.mem_of_getElem? hx)
      refine ⟨?_,fun e _ => he e⟩
      unfold ClientRecvBody.elapsed
      rw [hd]
  · intro x hx
    obtain ⟨b,hmem,rfl⟩ := List.mem_map.mp hx
    exact ⟨hb b hmem,by rintro e ⟨⟩⟩

/-- One call: a request of two bytes, cut in two chunks on the way, and a response of one. -/
def helloBodies : List Bodies := [⟨[[1,2]],.clean,⟨200,[]⟩,[[3]],.clean,none⟩]

def helloBytes : List ByteLabel :=
  [.send .poll,.send .begin,.send (.write 2),.send .flush,.send .sent,.send .poll,.send .flush,.send .sent,
    .deliver 1,.deliver 1,.deliverEnd "",.recv,.recv,.recv].map (.request 0) ++
  [.send .begin,.send .flush,.send .sent,.send .poll,.send .begin,.send (.write 1),.send .flush,.send .sent,
    .send .poll,.send .flush,.send .sent,.deliver 1,.deliverEnd "",.recv,.recv].map (.response 0)

theorem helloBytes_finished : ∃ s, exec step (init helloBodies) helloBytes = some s ∧ s.Finished := by
  refine ⟨_,rfl,fun x hx => ?_⟩
  cases List.mem_singleton.mp hx
  exact ⟨rfl,by simp,rfl,by simp⟩

theorem helloBytes_calm : Meets step Calm (init helloBodies) helloBytes := by
  apply calm_of_quiet
  · intro b hb
    cases List.mem_singleton.mp hb
    rfl
  · simp [helloBytes,ByteLabel.quiet,TransferLabel.orderly,DownloadLabel.orderly,SendLabel.orderly]

theorem bytes_not_conserved : ¬ ∀ (bodies : List Bodies) (ls : List ByteLabel) (s : ByteTraffic),
    exec step (init bodies) ls = some s → Meets step Calm (init bodies) ls → s.Finished →
      BytesConserved bodies ls s := by
  intro h
  obtain ⟨s,hs,hfin⟩ := helloBytes_finished
  have hc := h helloBodies helloBytes s hs helloBytes_calm hfin
  have htotals : Totals helloBodies s :=
    exec_invariant (fun _ _ _ hu hst => step_totals hu hst) (totals_init helloBodies) hs
  have hreceived := hc.requestsReceived
  rw [Metrics.received,htotals.received] at hreceived
  cases hreceived

theorem bytes_conserved_iff_helloBytes : ∃ s, exec step (init helloBodies) helloBytes = some s ∧
    s.metrics.sent "client" = 2 ∧ s.metrics.sent "server" = 1 := by
  obtain ⟨s,hs,hfin⟩ := helloBytes_finished
  obtain ⟨hclient,hserver,-⟩ := bytes_conserved_iff helloBodies hs helloBytes_calm hfin
  exact ⟨s,hs,hclient,hserver⟩

end ByteTraffic

end GrpcQuic
