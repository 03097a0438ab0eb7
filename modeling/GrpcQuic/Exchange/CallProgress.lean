import GrpcQuic.Exchange.CalmRun

/-! # A calm call can always be completed

However the parties of a call have been interleaved so far: as long as nothing has
failed for good, steps of theirs lead to the end of the response. What can stand in
the way is the deadline, and that the attempts of the call are used up.
-/
namespace GrpcQuic.RoundTrip
open Transition Server
variable {x : Setup} {f : Service}

/-! ## The way to the end -/

section
variable {s t : State}

theorem event_step {e : Call.Event} {cs : Call.State} (hd : s.client.dropped = false)
    (hr : ∀ r, e ≠ .responded r) (ha : s.client.asleep e = false)
    (hcs : Call.step x.call s.client.call e = some cs) :
    Calm f s (.client (.call e)) ∧
      step x s (.client (.call e)) = some { s with client := (s.client.goOn x.request cs).onEvent x.request e } := by
  constructor
  · cases e with
    | responded r => exact (hr r rfl).elim
    | _ => simp [Calm,Undisturbed]
  · have ho : ownStep (.call e) = true := by
      cases e with
      | responded r => exact (hr r rfl).elim
      | _ => rfl
    have hst : Rpc.step x.request s.client (.call e) = some ((s.client.goOn x.request cs).onEvent x.request e) := by
      simp only [Rpc.step,hd,ha,Bool.or_self,Bool.false_eq_true,if_false]
      rw [show x.request.call = x.call from rfl,hcs]
      rfl
    simp only [step,ho,if_true,hst,Option.map_some]

abbrev Opens (n : ℕ) (s : State) : Prop := s.client.call.phase = .awaitingResponse ∧ s.client.now = n

theorem sending_opens (entry : Pool.PoolEntry) (hd : s.client.dropped = false)
    (hp : s.client.call.phase = .sending entry) : CanMeet (step x) (Calm f) (Opens s.client.now) s := by
  have hcs : Call.step x.call s.client.call (.sent (.ok ())) = some { s.client.call with
      phase := .awaitingResponse
      log := s.client.call.log ++ [.streamOpened,.recordStream "client",.spawnForwarder] } := by
    simp only [Call.step,hp]
  obtain ⟨hc,hst⟩ := event_step (f := f) hd (by simp) rfl hcs
  exact .next _ hc hst (.now ⟨rfl,rfl⟩)

theorem building_opens (entry : Pool.PoolEntry) (hd : s.client.dropped = false)
    (hp : s.client.call.phase = .building entry) : CanMeet (step x) (Calm f) (Opens s.client.now) s := by
  have hcs : Call.step x.call s.client.call (.built (.ok ())) = some { s.client.call with
      phase := .sending entry
      log := s.client.call.log ++ [.sendRequest entry x.call.h3Request] } := by
    simp only [Call.step,hp]
  obtain ⟨hc,hst⟩ := event_step (f := f) hd (by simp) rfl hcs
  exact .next _ hc hst (sending_opens entry hd rfl)

theorem pooling_opens (hd : s.client.dropped = false) (hp : s.client.call.phase = .pooling) :
    CanMeet (step x) (Calm f) (Opens s.client.now) s := by
  have hcs : Call.step x.call s.client.call (.pooled (.ok ⟨⟨0⟩,⟨0⟩⟩)) = some { s.client.call with
      phase := .building ⟨⟨0⟩,⟨0⟩⟩
      log := s.client.call.log ++ [.pooled ⟨⟨0⟩,⟨0⟩⟩,.recordRequest "client" x.call.parts.path] } := by
    simp only [Call.step,hp]
  obtain ⟨hc,hst⟩ := event_step (f := f) hd (by simp) rfl hcs
  exact .next _ hc hst (building_opens ⟨⟨0⟩,⟨0⟩⟩ hd rfl)

theorem awake_opens (hd : s.client.dropped = false) (hp : s.client.call.phase = .sleeping)
    (hw : s.client.wakeAt ≤ s.client.now) : CanMeet (step x) (Calm f) (Opens s.client.now) s := by
  have hcs : Call.step x.call s.client.call .woke = some { s.client.call with
      phase := .pooling
      log := s.client.call.log ++ [.getOrConnect] } := by
    simp only [Call.step,hp]
  have ha : s.client.asleep .woke = false := decide_eq_false (Nat.not_lt_of_le hw)
  obtain ⟨hc,hst⟩ := event_step (f := f) hd (by simp) ha hcs
  exact .next _ hc hst (pooling_opens hd rfl)

theorem sleeping_opens (hd : s.client.dropped = false) (hp : s.client.call.phase = .sleeping) :
    CanMeet (step x) (Calm f) (Opens (max s.client.now s.client.wakeAt)) s := by
  let n := s.client.wakeAt - s.client.now
  have hst : step x s (.client (.tick n)) = some { s with client := { s.client with now := s.client.now + n } } := rfl
  have hmax : max s.client.now s.client.wakeAt = s.client.now + n := by omega
  rw [hmax]
  refine .next _ (by simp [Calm,Undisturbed]) hst ?_
  exact awake_opens (s := { s with client := { s.client with now := s.client.now + n } }) hd hp (by dsimp only; omega)

def pause (x : Setup) (k : ℕ) : ℕ := if k > 0 then x.call.retry.backoffFor (k - 1) else 0

theorem entered_opens {e : Call.Event} {k : ℕ} (hd : s.client.dropped = false) (hk : k < x.call.retry.maxAttempts)
    (hr : ∀ r, e ≠ .responded r) (hs : e ≠ .sent (.ok ())) (ha : s.client.asleep e = false)
    (hcs : Call.step x.call s.client.call e = some (s.client.call.enter x.call k)) :
    CanMeet (step x) (Calm f) (Opens (s.client.now + pause x k)) s := by
  obtain ⟨hc,hst⟩ := event_step (f := f) hd hr ha hcs
  rw [(Rpc.onEvent_other x.request hr hs).2] at hst
  refine .next _ hc hst ?_
  have hat : (s.client.goOn x.request (s.client.call.enter x.call k)).call = s.client.call.enter x.call k := rfl
  by_cases h0 : k > 0
  · have hp : (s.client.call.enter x.call k).phase = .sleeping := by
      simp only [Call.State.enter,hk,h0,if_true]
    have hw : (s.client.goOn x.request (s.client.call.enter x.call k)).wakeAt = s.client.now + pause x k := by
      simp only [Rpc.State.goOn,Rpc.State.wakeAfter,Call.State.enter,hk,h0,if_true,pause]
      rfl
    have hopens := sleeping_opens (x := x) (f := f)
      (s := { s with client := s.client.goOn x.request (s.client.call.enter x.call k) }) hd hp
    rw [hw] at hopens
    rwa [show max (s.client.goOn x.request (s.client.call.enter x.call k)).now (s.client.now + pause x k) =
      s.client.now + pause x k from Nat.max_eq_right (Nat.le_add_right _ _)] at hopens
  · have hp : (s.client.call.enter x.call k).phase = .pooling := by
      simp only [Call.State.enter,hk,h0,if_true,if_false]
    rw [show pause x k = 0 from if_neg h0]
    exact pooling_opens hd hp

/-- When the call can have its stream open at the earliest. -/
def opensAt (x : Setup) (c : Rpc.State) : ℕ :=
  match c.call.phase with
  | .sleeping => max c.now c.wakeAt
  | .invalidating => c.now + pause x (c.call.attempt + 1)
  | _ => c.now

theorem now_le_opensAt (x : Setup) (c : Rpc.State) : c.now ≤ opensAt x c := by
  unfold opensAt
  split
  · exact Nat.le_max_left _ _
  · exact Nat.le_add_right _ _
  · exact le_rfl

/-- The call has given up, or is about to because its attempts are used up. -/
def Spent (x : Setup) (c : Call.State) : Prop :=
  match c.phase with
  | .acquiring => x.call.retry.maxAttempts = 0
  | .invalidating => x.call.retry.maxAttempts ≤ c.attempt + 1
  | .done (.error _) => True
  | _ => False

theorem opens_of_unspent (hd : s.client.dropped = false) (hp : ¬ Spent x s.client.call)
    (hU : ¬ Underway s.client) : CanMeet (step x) (Calm f) (Opens (opensAt x s.client)) s := by
  unfold Spent at hp
  unfold Underway at hU
  unfold opensAt
  cases hphase : s.client.call.phase with
  | acquiring =>
    rw [hphase] at hp
    exact entered_opens hd (Nat.pos_of_ne_zero hp) (e := .acquired true) (by simp) (by simp) rfl
      (by simp only [Call.step,hphase,if_true])
  | sleeping => exact sleeping_opens hd hphase
  | pooling => exact pooling_opens hd hphase
  | building entry => exact building_opens entry hd hphase
  | sending entry => exact sending_opens entry hd hphase
  | invalidating =>
    rw [hphase] at hp
    exact entered_opens hd (Nat.lt_of_not_le hp) (e := .invalidated) (by simp) (by simp) rfl
      (by simp only [Call.step,hphase])
  | awaitingResponse => exact (hU (.inl hphase)).elim
  | done res =>
    cases res with
    | ok head => exact (hU (.inr ⟨head,hphase⟩)).elim
    | error e =>
      rw [hphase] at hp
      exact (hp trivial).elim

theorem Going.forwarder (h : Going f x s) : ∃ fw, s.client.forwarder = some fw := by
  refine Option.ne_none_iff_exists'.mp fun hf => ?_
  obtain ⟨hhalf,hbody⟩ := h.live.calm.inv.opened.halves.unspawned hf
  rcases h.underway with hp | ⟨head,hp⟩
  · exact h.live.calm.inv.opened.halves.owner.held hp h.live.client.undropped hhalf
  · exact h.live.client.returned head hp hbody

def Handling (hd : Handler) : Prop := hd.task.phase = .calling ∨ ∃ sender, hd.task.phase = .responding sender

theorem handler_calls {hd : Handler} (hh : s.handler = some hd) (hr : hd.task.phase ≠ .refusing)
    (he : hd.task.phase ≠ .ended) :
    CanMeet (step x) (Prompt f) (fun t => ∃ hd, t.handler = some hd ∧ Handling hd) s := by
  have hready {u : State} {hd : Handler} (hh : u.handler = some hd) (hp : hd.task.phase = .ready) :
      CanMeet (step x) (Prompt f) (fun t => ∃ hd, t.handler = some hd ∧ Handling hd) u := by
    have hst : step x u (.serve (.ready true)) =
        some { u with handler := some { hd with task := { hd.task with phase := .calling } } } := by
      simp only [step,hh,Option.bind_some,Handler.serve,RequestTask.step,hp,if_true,Option.map_some]
    exact .next (.serve (.ready true)) ⟨rfl,by simp⟩ hst (.now ⟨_,rfl,.inl rfl⟩)
  cases hp : hd.task.phase with
  | spawned =>
    have hst : step x s (.serve .start) = some { s with handler := some { hd with task := { hd.task with
        phase := .ready
        log := hd.task.log ++ [.recordRequest "server" hd.task.path,.recordStream "server"] } } } := by
      simp only [step,hh,Option.bind_some,Handler.serve,RequestTask.step,hp,Option.map_some]
    exact .next (.serve .start) ⟨trivial,by simp⟩ hst (hready rfl rfl)
  | ready => exact hready hh hp
  | calling => exact .now ⟨hd,hh,.inl hp⟩
  | refusing => exact (hr hp).elim
  | responding sender => exact .now ⟨hd,hh,.inr ⟨sender,hp⟩⟩
  | ended => exact (he hp).elim

theorem Going.calls (h : Going f x s) :
    CanMeet (step x) (Prompt f) (fun t => ∃ hd, t.handler = some hd ∧ Handling hd) s := by
  cases hh : s.handler with
  | some hd => exact handler_calls hh (h.live.task hd hh).1 (h.live.task hd hh).2
  | none =>
    obtain ⟨fw,hf⟩ := h.forwarder
    have hst : step x s .accept = some { s with handler := some (.new x.call.h3Request x.call.parts.path) } := by
      simp only [step,hf,hh]
    exact .next .accept ⟨trivial,by simp⟩ hst (handler_calls rfl (by rintro ⟨⟩) (by rintro ⟨⟩))

def requestLabel : TransferLabel → Label
  | .send m => .client (.forward m)
  | .deliver n => .requestBytes n
  | .deliverEnd message => .requestEnd message
  | .lose message => .requestLost message
  | .recv => .read

def Asking (u : Transfer Forwarder) (s : State) : Prop :=
  ∃ hd, s.client.forwarder = some u.sender ∧ s.handler = some hd ∧ hd.task.phase = .calling ∧
    hd.body = u.body ∧ hd.read = u.yielded

theorem Asking.receive {u v : Transfer Forwarder} (h : Asking u s)
    {g : Wire → RecvHalf → Option (Wire × RecvHalf)} {w : Wire} {half : RecvHalf}
    (hg : g u.sender.wire u.body.stream = some (w,half))
    (hv : v = { u.setHalf half with sender := { u.sender with wire := w } }) :
    ∃ t, s.receive g = some t ∧ Asking v t := by
  obtain ⟨hd,hf,hh,hp,hb,hr⟩ := h
  subst hv
  refine ⟨⟨{ s.client with forwarder := some { u.sender with wire := w } },
    some { hd with body := { hd.body with stream := half } }⟩,?_,_,rfl,rfl,hp,?_,hr⟩
  · simp only [State.receive,hf,hh,hb,hg,Option.map_some]
  · simp only [hb]
    rfl

theorem step_asking {u v : Transfer Forwarder} (h : Asking u s) {l : TransferLabel} (hl : l.orderly = true)
    (hst : uploadStep u l = some v) :
    Prompt f s (requestLabel l) ∧ ∃ t, step x s (requestLabel l) = some t ∧ Asking v t := by
  have hasking := h
  obtain ⟨hd,hf,hh,hp,hb,hr⟩ := h
  cases l with
  | send m =>
    obtain ⟨sender,hs,rfl⟩ := Option.map_eq_some_iff.mp hst
    have hm : Rpc.step x.request s.client (.forward m) = some { s.client with forwarder := some sender } := by
      cases m with
      | abort => cases hl
      | _ => simp only [Rpc.step,hf,hs,Option.map_some]
    refine ⟨⟨hl,by simp [requestLabel]⟩,{ s with client := { s.client with forwarder := some sender } },?_,
      hd,rfl,hh,hp,hb,hr⟩
    simp only [requestLabel,step,ownStep,hm,if_true,Option.map_some]
  | deliver n =>
    obtain ⟨⟨w,half⟩,hd',rfl⟩ := Option.map_eq_some_iff.mp hst
    exact ⟨⟨trivial,by simp [requestLabel]⟩,hasking.receive (g := fun wire half => wire.deliver half n) hd' rfl⟩
  | deliverEnd m =>
    obtain ⟨half,hd',rfl⟩ := Option.map_eq_some_iff.mp hst
    have hg : ((u.sender.wire.deliverEnd u.body.stream m).map fun half => (u.sender.wire,half)) =
        some (u.sender.wire,half) := by
      simp only [hd',Option.map_some]
    exact ⟨⟨trivial,by simp [requestLabel]⟩,
      hasking.receive (g := fun wire half => (wire.deliverEnd half m).map fun half => (wire,half)) hg rfl⟩
  | lose m => cases hl
  | recv =>
    refine ⟨⟨trivial,by simp [requestLabel]⟩,⟨s.client,some hd.readFrame⟩,?_,hd.readFrame,?_,rfl,?_,?_⟩
    · simp only [requestLabel,step,hh,Option.bind_some,Handler.poll,hp,Option.map_some]
    · have hrecv := readFrame_recv hd u.sender
      rw [hb,hr] at hrecv
      cases hrecv.symm.trans hst
      exact hf
    · unfold Handler.readFrame
      split <;> exact hp
    · have hrecv := readFrame_recv hd u.sender
      rw [hb,hr] at hrecv
      cases hrecv.symm.trans hst
      exact ⟨rfl,rfl⟩

theorem Going.reads (h : Going f x s) (hb : ∀ e, x.ending ≠ .error e) (hq : [] ∉ x.frames.dropLast) {hd : Handler}
    (hh : s.handler = some hd) (hp : hd.task.phase = .calling) :
    CanMeet (step x) (Prompt f)
      (fun t => ∃ hd, t.handler = some hd ∧ hd.task.phase = .calling ∧ PresentedComplete hd.read) s := by
  obtain ⟨fw,hf⟩ := h.forwarder
  have hsmooth := (h.live.upload hb hf).1
  have hu : s.uploadOf fw = ⟨fw,hd.body,hd.read⟩ := by
    unfold State.uploadOf
    rw [hh]
  rw [hu] at hsmooth
  refine CanMeet.lift (R := Asking) requestLabel (fun u s l v hR hl hst => step_asking hR hl hst) ?_
    (s := ⟨fw,hd.body,hd.read⟩) ⟨hd,hf,hh,hp,rfl,rfl⟩
    ((hsmooth.ends (L := forwarderLoop)).along (fun _ _ _ hs hl hst => step_smooth hs hl hst) hsmooth)
  rintro u t ⟨hd',-,hh',hp',-,hr'⟩ ⟨hu,hn⟩
  refine ⟨hd',hh',hp',?_⟩
  rw [hr']
  exact ⟨hn,hu.clean hq⟩

theorem Going.answers (h : Going f x s) (hb : ∀ e, x.ending ≠ .error e) (hq : [] ∉ x.frames.dropLast) {hd : Handler}
    (hh : s.handler = some hd) (hH : Handling hd) :
    CanMeet (step x) (Prompt f) (fun t => ∃ hd sender, t.handler = some hd ∧ hd.task.phase = .responding sender) s := by
  rcases hH with hp | ⟨sender,hp⟩
  · refine (h.reads hb hq hh hp).trans ?_
    rintro u ⟨hd,hh,hp,hn,herr⟩
    have hst : step x u (.serve (.called (some (f.reply hd)))) = some { u with handler := some { hd with
        task := { hd.task with phase := .responding (.respond (f.reply hd).1 (f.reply hd).2) }
        answer := some (f.reply hd) } } := by
      have he : (f.reply hd).2.ended = false := rfl
      simp only [step,hh,Option.bind_some,Handler.serve,he,Bool.false_eq_true,if_false,RequestTask.step,hp,
        Option.map_some]
    exact .next (.serve (.called (some (f.reply hd)))) ⟨⟨hd,hh,hn,herr,rfl⟩,by simp⟩ hst (.now ⟨_,_,rfl,rfl⟩)
  · exact .now ⟨hd,sender,hh,hp⟩

theorem serve_send {h : Handler} {sender sender' : Sender ResponseLoop} (hp : h.task.phase = .responding sender)
    {m : SendLabel} (hm : m.orderly = true) (hst : sender.step responseLoop m = some sender') :
    ∃ h', h.serve (.send m) = some h' ∧ h'.task.phase = .responding sender' := by
  refine ⟨{ h with task := { h.task.push (sender.passed m) with phase := .responding sender' } },?_,rfl⟩
  cases m with
  | abort => cases hm
  | _ => simp only [Handler.serve,RequestTask.step,hp,hst,Option.map_some]

def Answered (s : State) : Prop :=
  ∃ hd sender, s.handler = some hd ∧ hd.task.phase = .responding sender ∧ sender.await = .left

theorem Going.sends (h : Going f x s) {hd : Handler} {sender : Sender ResponseLoop} (hh : s.handler = some hd)
    (hp : hd.task.phase = .responding sender) : CanMeet (step x) (Prompt f) Answered s := by
  have hr : s.responder = sender := by simp only [State.responder,hh,responderOf,hp]
  have hsound : Sound (answerBody s.answer) sender := by
    rw [← hr]
    exact ⟨h.live.calm.promises.inv,h.live.responder.opened,h.live.responder.unbroken⟩
  refine CanMeet.lift (R := fun u s => ∃ hd : Handler, s.handler = some hd ∧ hd.task.phase = .responding u)
    (fun m => .serve (.send m)) ?_ ?_ ⟨hd,hh,hp⟩ (hsound.ends (L := responseLoop))
  · rintro u v m u' ⟨hd,hh,hp⟩ hm hst
    obtain ⟨hd',hserve,hp'⟩ := serve_send hp hm hst
    refine ⟨⟨hm,by simp⟩,{ v with handler := some hd' },?_,hd',rfl,hp'⟩
    simp only [step,hh,Option.bind_some,hserve,Option.map_some]
  · rintro u v ⟨hd,hh,hp⟩ ha
    exact ⟨hd,u,hh,hp,ha⟩

/-- A call whose whole response is on the wire can take over its body. -/
theorem Going.returns (h : Going f x s) (hA : Answered s) :
    CanMeet (step x) (Prompt f) (fun t => Answered t ∧ ∃ head, t.client.call.phase = .done (.ok head)) s := by
  rcases h.underway with hp | hdone
  · have hkeep := hA
    obtain ⟨hd,sender,hh,hph,ha⟩ := hA
    have hr : s.responder = sender := by simp only [State.responder,hh,responderOf,hph]
    obtain ⟨head,hhead⟩ : ∃ head, s.responder.wire.head = some head := by
      refine Option.ne_none_iff_exists'.mp ?_
      rcases h.live.responder.begun with hne | ⟨head,stage,-,hsend⟩
      · exact hne
      · rw [hr,ha] at hsend
        cases hsend
    obtain ⟨half,hhalf⟩ := Option.ne_none_iff_exists'.mp
      (h.live.calm.inv.opened.halves.owner.held hp h.live.client.undropped)
    obtain ⟨client,hcl,hph'⟩ : ∃ client, Rpc.step x.request s.client (.call (.responded (.ok head))) = some client ∧
        client.call.phase = .done (.ok head) := by
      simp only [Rpc.step,h.live.client.undropped,Rpc.State.asleep,Bool.or_self,Bool.false_eq_true,if_false,Call.step,
        hp,Option.map_some,Rpc.State.onEvent,Rpc.State.goOn,hhalf]
      exact ⟨_,rfl,rfl⟩
    have hst : step x s .respond = some { s with client } := by
      simp only [step,hhead,Option.bind_some,hcl,Option.map_some]
    exact .next .respond ⟨trivial,by simp⟩ hst (.now ⟨hkeep,head,hph'⟩)
  · exact .now ⟨hA,hdone⟩

structure Showing (u : Transfer ResponseLoop) (s : State) : Prop where
  handler : ∃ h, s.handler = some h ∧ h.task.phase = .responding u.sender
  client : ∃ c, s.client.body = .present c ∧ c.toServerRecvBody = u.body ∧ c.isClosed = false ∧
    c.elapsed s.client.now = false
  half : s.client.half = none
  silent : ∀ e, s.client.err ≠ .sent e
  yielded : s.client.yielded = u.yielded

def responseLabel : TransferLabel → Label
  | .send m => .serve (.send m)
  | .deliver n => .responseBytes n
  | .deliverEnd message => .responseEnd message
  | .lose message => .responseLost message
  | .recv => .client .poll

theorem Showing.arrive {u : Transfer ResponseLoop} (h : Showing u s) {g : RecvHalf → RecvHalf}
    (he : u.body.stream.ending = none) {sender : Sender ResponseLoop} {handler : Option Handler}
    (hh : ∃ hd, handler = some hd ∧ hd.task.phase = .responding sender) :
    ∃ client, s.client.mapHalf g = some client ∧ ∀ arrived arrivedEnd,
      Showing { u.setHalf (g u.body.stream) with sender } ⟨{ client with arrived, arrivedEnd },handler⟩ := by
  obtain ⟨c,hb,hbody,hcl,hel⟩ := h.client
  have hs : c.stream = u.body.stream := by rw [← hbody]
  refine ⟨{ s.client with body := .present { c with stream := g c.stream } },?_,fun _ _ =>
    ⟨hh,⟨_,rfl,?_,hcl,hel⟩,h.half,h.silent,h.yielded⟩⟩
  · simp only [Rpc.State.mapHalf,h.half,hb,hs,he,Option.isNone_none,if_true]
  · simp only [Transfer.setHalf,← hbody]

theorem Showing.poll {u v : Transfer ResponseLoop} (h : Showing u s)
    (hst : u.step responseLoop .recv = some v) :
    Undisturbed s (.client .poll) ∧ ∃ client, Rpc.step x.request s.client .poll = some client ∧
      Showing v { s with client } := by
  obtain ⟨c,hb,hbody,hcl,hel⟩ := h.client
  have hab : c.pollAborts s.client.now = false := by
    unfold ClientRecvBody.pollAborts
    rw [hel,Bool.and_false,Bool.false_and]
  refine ⟨fun _ c' hc' => ?_,{ s.client with
    body := .present (c.pollFrame s.client.now s.client.err).2
    yielded := s.client.yielded ++ (c.pollFrame s.client.now s.client.err).1.toList },?_,?_⟩
  · cases hb.symm.trans hc'
    exact ⟨hel,fun e _ => h.silent e⟩
  · simp only [Rpc.step,hb,hab,Rpc.State.abortIf,Bool.false_eq_true,if_false]
  · rcases c.pollFrame_cases s.client.now s.client.err with ⟨hcl',-⟩ | ⟨-,hel',-⟩ | ⟨-,-,-,e,he,-⟩ |
      ⟨-,-,-,rx,-,hp⟩
    · exact (Bool.false_ne_true (hcl.symm.trans hcl')).elim
    · exact (Bool.false_ne_true (hel.symm.trans hel')).elim
    · exact (h.silent e he).elim
    · have hv : v.sender = u.sender ∧ v.body = c.toServerRecvBody.pollFrame.2 ∧
          v.yielded = u.yielded ++ c.toServerRecvBody.pollFrame.1.toList := by
        simp only [Transfer.step,← hbody] at hst
        generalize c.toServerRecvBody.pollFrame = p at hst
        obtain ⟨r,body⟩ := p
        cases r with
        | ready r => cases hst; exact ⟨rfl,rfl,rfl⟩
        | pending => cases hst; exact ⟨rfl,rfl,(List.append_nil _).symm⟩
      rw [hp]
      refine ⟨?_,⟨_,rfl,hv.2.1.symm,hcl,hel⟩,h.half,h.silent,?_⟩
      · rw [hv.1]
        exact h.handler
      · rw [hv.2.2,← h.yielded]

/-- Each orderly step of the response half is a calm step of the call. -/
theorem step_showing {u v : Transfer ResponseLoop} (f : Service) (h : Showing u s) {l : TransferLabel}
    (hl : l.orderly = true) (hst : u.step responseLoop l = some v) :
    Calm f s (responseLabel l) ∧ ∃ t, step x s (responseLabel l) = some t ∧ Showing v t := by
  obtain ⟨hd,hh,hp⟩ := h.handler
  have hr : s.responder = u.sender := by simp only [State.responder,hh,responderOf,hp]
  cases l with
  | send m =>
    obtain ⟨sender,hs,rfl⟩ := Option.map_eq_some_iff.mp hst
    obtain ⟨hd',hserve,hp'⟩ := serve_send hp hl hs
    refine ⟨hl,{ s with handler := some hd' },?_,⟨hd',rfl,hp'⟩,h.client,h.half,h.silent,h.yielded⟩
    simp only [responseLabel,step,hh,Option.bind_some,hserve,Option.map_some]
  | deliver n =>
    obtain ⟨⟨w,half⟩,hd',rfl⟩ := Option.map_eq_some_iff.mp hst
    obtain ⟨he,chunk,hpiece,rfl,rfl⟩ := deliver_cases hd'
    have hpull : (pullTask hd.task (frameCells chunk).length).phase = .responding { u.sender with wire :=
        { u.sender.wire with tape := u.sender.wire.tape.pull (frameCells chunk).length } } := by
      simp only [pullTask,hp]
    obtain ⟨client,hmap,hS⟩ := h.arrive (g := fun half => { half with chunks := half.chunks ++ [chunk] }) he
      ⟨{ hd with task := pullTask hd.task (frameCells chunk).length },rfl,hpull⟩
    refine ⟨trivial,_,?_,hS (s.client.arrived ++ [chunk]) client.arrivedEnd⟩
    simp only [responseLabel,step,hr,hpiece,Option.bind_some,Rpc.step,hmap,hh,Option.map_some]
  | deliverEnd m =>
    obtain ⟨half,hd',rfl⟩ := Option.map_eq_some_iff.mp hst
    unfold Wire.deliverEnd at hd'
    split at hd'
    · rename_i c he hc
      split at hd'
      · rename_i hx
        cases hd'
        obtain ⟨client,hmap,hS⟩ := h.arrive (g := fun half => { half with ending := some (c.arrival m) }) he
          ⟨hd,hh,hp⟩
        refine ⟨trivial,_,?_,hS client.arrived (some (c.arrival m))⟩
        simp only [responseLabel,step,hr,hc,hx,if_true,Rpc.step,hmap,Option.map_some,hh]
      · cases hd'
    · cases hd'
  | lose m => cases hl
  | recv =>
    obtain ⟨hU,client,hc,hS⟩ := h.poll (x := x) hst
    refine ⟨hU,{ s with client },?_,hS⟩
    simp only [responseLabel,step,ownStep,hc,if_true,Option.map_some]

/-- The reading of the response wire behind a client that has its body. -/
theorem LiveInv.smooth (h : LiveInv f x s) {c : ClientRecvBody RecvHalf} (hc : s.client.body = .present c) :
    ∃ u, Smooth (answerBody s.answer) u ∧ Shows x s u ∧ Exact x s u := by
  have hreader : s.client.reader x.request = some c :=
    Rpc.reader_of_body (h.calm.inv.opened.halves.apart (by rw [hc]; simp)) hc
  obtain ⟨u,hu,hE⟩ := h.calm.response
  refine ⟨u,⟨hu.inv,⟨hu.inv.sender,?_,?_⟩,fun m hm => ?_⟩,hu,hE⟩
  · rw [hu.sender]
    exact h.responder.opened
  · rw [hu.sender]
    exact h.responder.unbroken
  · rw [hu.stream c hreader] at hm
    exact h.client.reader c hreader m hm

/-- The response body of a call that has returned can be read to its end. -/
theorem Going.shows (h : Going f x s) (hb : ∀ e, x.ending ≠ .error e) (hA : Answered s) {head : ResponseHead}
    (hp : s.client.call.phase = .done (.ok head)) :
    CanMeet (step x) (Prompt f) (fun t => none ∈ t.client.yielded) s := by
  obtain ⟨hd,sender,hh,hph,ha⟩ := hA
  have hr : s.responder = sender := by simp only [State.responder,hh,responderOf,hph]
  obtain ⟨c,hc⟩ : ∃ c, s.client.body = .present c := by
    cases hbody : s.client.body with
    | absent => exact (h.live.client.returned head hp hbody).elim
    | present c => exact ⟨c,rfl⟩
    | dropped => exact (h.live.client.body hbody).elim
  have hhalf := h.live.calm.inv.opened.halves.apart (by rw [hc]; simp)
  have hreader : s.client.reader x.request = some c := Rpc.reader_of_body hhalf hc
  obtain ⟨u,hsmooth,hu,hE⟩ := h.live.smooth hc
  have hcl := hE.notClosed c hreader
  have hbody := hu.body c hreader hcl
  obtain ⟨fw,hf⟩ := h.forwarder
  have helapsed : c.elapsed s.client.now = false := by
    unfold ClientRecvBody.elapsed
    rw [h.live.client.timer c hc]
    split
    · rename_i d hd'
      exact decide_eq_false (Nat.not_le_of_lt (h.inTime d hd'))
    · rfl
  have hshow : Showing u s := by
    refine ⟨⟨hd,hh,?_⟩,⟨c,hc,hbody.symm,hcl,helapsed⟩,hhalf,?_,hE.yielded.symm⟩
    · rw [hu.sender,hr]
      exact hph
    · simp only [Rpc.State.err,hf]
      exact (h.live.upload hb hf).2
  refine CanMeet.lift (R := Showing) responseLabel ?_ (fun v t hR hn => by rw [hR.yielded]; exact hn) hshow
    (hsmooth.ends (L := responseLoop))
  intro u v l u' hR hl hst
  obtain ⟨hcalm,hnext⟩ := step_showing (x := x) f hR hl hst
  refine ⟨⟨hcalm,fun n hn => ?_⟩,hnext⟩
  cases l <;> cases hn

theorem Going.completes (h : Going f x s) (hb : ∀ e, x.ending ≠ .error e) (hq : [] ∉ x.frames.dropLast) :
    CanMeet (step x) (Prompt f) (fun t => none ∈ t.client.yielded) s := by
  refine (h.reaches h.calls).trans ?_
  rintro s ⟨h,hd,hh,hH⟩
  refine (h.reaches (h.answers hb hq hh hH)).trans ?_
  rintro s ⟨h,hd,sender,hh,hp⟩
  refine (h.reaches (h.sends hh hp)).trans ?_
  rintro s ⟨h,hA⟩
  refine (h.reaches (h.returns hA)).trans ?_
  rintro s ⟨h,hA,head,hp⟩
  exact h.shows hb hA hp

/-! ## When a calm call can be completed -/

/-- With no empty frame in front of another one the client of a calm run reads no error. -/
theorem LiveInv.clean (h : LiveInv f x s) (ha : [] ∉ (f.apply x).2.1.dropLast) (e : CoreError) :
    some (.error e) ∉ s.client.yielded := by
  have hbody : [] ∉ (answerBody s.answer).frames.dropLast := by
    cases hans : s.answer with
    | none => exact List.not_mem_nil
    | some a =>
      obtain ⟨rfl,-⟩ := h.calm.answer a hans
      exact ha
  cases hb : s.client.body with
  | absent =>
    rw [h.calm.inv.opened.halves.unread hb]
    exact List.not_mem_nil
  | present c =>
    obtain ⟨u,hsmooth,-,hE⟩ := h.smooth hb
    rw [← hE.yielded]
    exact hsmooth.clean hbody e
  | dropped => exact (h.client.body hb).elim

def OpensInTime (x : Setup) (s : State) : Prop := ∀ d, x.deadline = some d → opensAt x s.client < d

theorem LiveInv.completes (h : LiveInv f x s) (hb : ∀ e, x.ending ≠ .error e) (hF : Solid f x) (hT : OpensInTime x s)
    (hS : ¬ Spent x s.client.call) : CanMeet (step x) (Calm f) (fun t => PresentedComplete t.client.yielded) s := by
  have hgo {t : State} (ht : Going f x t) : CanMeet (step x) (Calm f) (fun t => none ∈ t.client.yielded) t :=
    (ht.completes hb hF.1).widen fun _ _ hc => hc.1
  have hcalm : CanMeet (step x) (Calm f) (fun t => none ∈ t.client.yielded) s := by
    by_cases hU : Underway s.client
    · exact hgo ⟨h,fun d hd => Nat.lt_of_le_of_lt (now_le_opensAt x s.client) (hT d hd),hU⟩
    · refine ((opens_of_unspent h.client.undropped hS hU).along
        (fun _ _ _ hs hc hst => step_liveInv hs hc hst) h).trans ?_
      rintro t ⟨ht,hp,hnow⟩
      exact hgo ⟨ht,fun d hd => hnow ▸ hT d hd,.inl hp⟩
  exact (hcalm.along (fun _ _ _ hs hc hst => step_liveInv hs hc hst) h).mono fun t ht => ⟨ht.2,ht.1.clean hF.2⟩

theorem LiveInv.unread (h : LiveInv f x s) (hS : Spent x s.client.call) : none ∉ s.client.yielded := by
  have hbody : s.client.body = .absent := by
    by_contra hb
    obtain ⟨head,hp⟩ := h.calm.inv.opened.halves.answered hb
    unfold Spent at hS
    rw [hp] at hS
    exact hS
  rw [h.calm.inv.opened.halves.unread hbody]
  exact List.not_mem_nil

end

end GrpcQuic.RoundTrip
