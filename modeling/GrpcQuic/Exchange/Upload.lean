import GrpcQuic.Exchange.Transfer

/-! # The request half of a call

The forwarder of `QuicChannel::call` sends the request body to the body the
server hands to its service. Where the forwarder is dropped between two frames
the transport finishes the stream for it, and the server cannot tell this from
the end of the request.
-/
namespace GrpcQuic
open Transition

def upload (frames : List Bytes) (ending : Ending) : Transfer Forwarder :=
  .init (.forward (.new frames ending))

abbrev uploadStep := Transfer.step forwarderLoop

/-- The reader got to the end and saw no error. -/
def PresentedComplete (results : List FrameResult) : Prop :=
  none ∈ results ∧ ∀ e, some (.error e) ∉ results

/-- The body got to its clean end or its trailers, and all its data is on the wire. -/
def SentWhole {σ : Type*} (b : Body) (s : Sender σ) : Prop :=
  s.body.ended = true ∧ (∀ e, b.ending ≠ .error e) ∧ s.wire.tape.written = b.cells

def NoTruncation {σ : Type*} (b : Body) (s : Transfer σ) : Prop :=
  PresentedComplete s.yielded → SentWhole b s.sender

/-- The body does not fail on this poll, and an abort does not cut between two
frames of a body that has not ended. -/
def NoCutBetweenFrames (s : Transfer Forwarder) (l : TransferLabel) : Prop :=
  (l = .send .poll → ∀ e, s.sender.body.next.1 ≠ some (.error e)) ∧
    ∀ m, l = .send m → OrderlyAbort s.sender m

def WholeEnd {σ : Type*} (b : Body) (s : Transfer σ) : Prop :=
  ∀ c, s.sender.wire.closing = some c → c ≠ .broken → SentWhole b s.sender

structure UploadInv (b : Body) (s : Transfer Forwarder) : Prop extends TransferInv b s where
  failed : s.sender.body.ended = true →
    (∀ e, b.ending ≠ .error e) ∨ s.sender.wire.closing = some .fin

variable {frames : List Bytes} {ending : Ending} {b : Body} {s t : Transfer Forwarder}

theorem senderInv_forward (frames : List Bytes) (ending : Ending) :
    SenderInv (.new frames ending) (.forward (.new frames ending)) :=
  ⟨⟨rfl,rfl,nofun,List.nil_prefix,nofun⟩,fun _ => rfl,rfl,rfl⟩

theorem uploadInv_init (frames : List Bytes) (ending : Ending) :
    UploadInv (.new frames ending) (upload frames ending) :=
  ⟨.init (senderInv_forward frames ending) rfl,nofun⟩

theorem Body.ending_of_next_error {body : Body} {e : String} (h : body.next.1 = some (.error e)) :
    body.ending = .error e := by
  unfold Body.next at h
  split at h
  · cases h
  · split at h
    · cases h
    · cases he : body.ending with
      | clean => rw [he] at h; cases h
      | trailers t => rw [he] at h; cases h
      | error e' => rw [he] at h; cases h; rfl

/-- When the body fails the forwarder drops its send half, which finishes it. -/
theorem forward_of_error {s : Sender Forwarder} (h : SenderInv b s) (ha : s.await = .body) {e : String}
    (hn : s.body.next.1 = some (.error e)) :
    ({ s with body := s.body.next.2 }.onFrame forwarderLoop s.body.next.1).wire.closing = some .fin := by
  have hc : s.wire.closing = none := by
    have haw := h.await
    unfold Sender.AwaitInv at haw
    rw [ha] at haw
    exact haw.1
  have hfin (u : Sender Forwarder) (hu : u.wire = s.wire) (hua : u.await = .body) :
      (u.leave forwarderLoop).wire.closing = some .fin :=
    leave_fin (by rw [hu]; exact hc) (by rw [hua]; rfl)
  rw [hn]
  exact hfin { s with body := s.body.next.2, loop := s.loop.fail e } rfl ha

theorem step_uploadInv (h : UploadInv b s) {l : TransferLabel} (hst : uploadStep s l = some t) :
    UploadInv b t := by
  refine ⟨step_transferInv h.toTransferInv hst,fun he => ?_⟩
  rcases Transfer.step_sender hst with ⟨m,sender,rfl,hs,rfl⟩ | ⟨-,ht | ⟨n,ht⟩⟩
  · rcases step_ended hs he with he' | ⟨rfl,ha,hn⟩
    · rcases h.failed he' with hne | hfin
      · exact .inl hne
      · exact .inr (by rw [step_closed h.sender hfin hs]; exact hfin)
    · cases hb : b.ending with
      | clean => exact .inl (by rintro e ⟨⟩)
      | trailers t => exact .inl (by rintro e ⟨⟩)
      | error e =>
        rw [h.sender.ending,hb] at hn
        obtain ⟨-,rfl⟩ := step_poll hs
        exact .inr (forward_of_error h.sender ha hn)
  · rw [ht] at he ⊢
    exact h.failed he
  · rw [ht] at he ⊢
    exact h.failed he

/-- A step keeps the promise of a well-closed wire exactly when it neither lets
the body fail nor cuts it between two frames. -/
theorem step_wholeEnd (h : UploadInv b s) (hP : WholeEnd b s) {l : TransferLabel}
    (hst : uploadStep s l = some t) : WholeEnd b t ↔ NoCutBetweenFrames s l := by
  have hinv := step_uploadInv h hst
  rcases Transfer.step_sender hst with ⟨m,sender,rfl,hs,rfl⟩ | ⟨hl,ht⟩
  · constructor
    · intro hQ
      refine ⟨?_,?_⟩
      · intro hm e hn
        cases hm
        obtain ⟨ha,rfl⟩ := step_poll hs
        have hw := hQ .fin (forward_of_error h.sender ha hn) Closing.fin_ne_broken
        exact hw.2.1 e (h.sender.ending.symm.trans (Body.ending_of_next_error hn))
      · intro m' hm hab
        cases hm
        subst hab
        by_cases hc : s.sender.wire.closing = none
        · cases hmid : s.sender.await.midFrame with
          | true => exact .inr (.inl rfl)
          | false =>
            rcases step_abort hs with ⟨ha,-⟩ | rfl
            · have haw := h.sender.await
              unfold Sender.AwaitInv at haw
              rw [ha] at haw
              exact (haw hc).elim
            · exact .inr (.inr (hQ .fin (leave_fin hc hmid) Closing.fin_ne_broken).1)
        · exact .inl hc
    · rintro ⟨hpoll,hab⟩
      have hE : EndInv b s.sender := fun c hc hne => ⟨(hP c hc hne).1,(hP c hc hne).2.2⟩
      have hE' := (step_senderInv h.sender hs).2 (hab m rfl) hE
      intro c hc hne
      obtain ⟨he,hw⟩ := hE' c hc hne
      refine ⟨he,?_,hw⟩
      rcases step_ended hs he with he' | ⟨rfl,ha,hn⟩
      · rcases h.failed he' with hok | hfin
        · exact hok
        · exact (hP .fin hfin Closing.fin_ne_broken).2.1
      · intro e hb
        refine hpoll rfl e ?_
        rw [hn,h.sender.ending,hb]
        rfl
  · refine ⟨fun _ => ⟨fun he => (hl _ he).elim,fun m he => (hl m he).elim⟩,fun _ => ?_⟩
    unfold WholeEnd
    rcases ht with ht | ⟨n,ht⟩ <;> rw [ht] <;> exact hP

/-- A wire that was closed on less than a whole body stays closed on it. -/
theorem wholeEnd_back (h : UploadInv b s) {l : TransferLabel} (hst : uploadStep s l = some t)
    (ht : WholeEnd b t) : WholeEnd b s := by
  intro c hc hne
  rcases Transfer.step_sender hst with ⟨m,sender,rfl,hs,rfl⟩ | ⟨-,hsame⟩
  · have hwire := step_closed h.sender hc hs
    obtain ⟨he,hb,hw⟩ := ht c (by rw [hwire]; exact hc) hne
    refine ⟨?_,hb,by rw [← hwire]; exact hw⟩
    rcases step_ended hs he with he' | ⟨-,ha,-⟩
    · exact he'
    · have haw := h.sender.await
      unfold Sender.AwaitInv at haw
      rw [ha,hc] at haw
      cases haw.1
  · unfold WholeEnd at ht
    rcases hsame with hsame | ⟨n,hsame⟩ <;> rw [hsame] at ht <;> exact ht c hc hne

theorem noTruncation_of_wholeEnd (h : TransferInv b s) (hW : WholeEnd b s) : NoTruncation b s := by
  intro hp
  obtain ⟨ds,c,k,hc,hne,-⟩ := h.ended hp.1 hp.2
  exact hW c hc hne

def Unpresented (s : Transfer Forwarder) : Prop := none ∈ s.yielded → ∃ e, some (.error e) ∈ s.yielded

theorem unpresented_back (h : TransferInv b s) {l : TransferLabel} (hst : uploadStep s l = some t)
    (ht : Unpresented t) : Unpresented s := by
  intro hn
  have hsub : none ∈ t.yielded := by
    rcases Transfer.step_yielded hst with hy | ⟨-,r,hy⟩ <;> rw [hy]
    · exact hn
    · exact List.mem_append_left _ hn
  obtain ⟨e,he⟩ := ht hsub
  exact ⟨e,h.error_before_end hn hst he⟩

/-- In every run whose steps neither let the body fail nor abort the forwarder
between two frames, no truncated request is presented as complete. In every run
in which the server reads to the end, it is so in those and in the runs that show
the server an error, only. -/
theorem upload_truncation {ls : List TransferLabel}
    (h : exec uploadStep (upload frames ending) ls = some s) :
    (Meets uploadStep NoCutBetweenFrames (upload frames ending) ls →
      Always uploadStep (NoTruncation (.new frames ending)) (upload frames ending) ls) ∧
    (none ∈ s.yielded →
      (Always uploadStep (NoTruncation (.new frames ending)) (upload frames ending) ls ↔
        Meets uploadStep NoCutBetweenFrames (upload frames ending) ls ∨ ∃ e, some (.error e) ∈ s.yielded)) := by
  have hinit := uploadInv_init frames ending
  have hstep (s : Transfer Forwarder) (l : TransferLabel) (t : Transfer Forwarder)
      (hs : UploadInv (.new frames ending) s) (hst : uploadStep s l = some t) :
      UploadInv (.new frames ending) t := step_uploadInv hs hst
  have hiff : Always uploadStep (WholeEnd (.new frames ending)) (upload frames ending) ls ↔
      Meets uploadStep NoCutBetweenFrames (upload frames ending) ls :=
    always_iff_meets (fun _ _ _ hs _ hst => step_uploadInv hs hst)
      (fun _ _ _ hs hP _ hst => step_wholeEnd hs hP hst) hinit nofun meets_true h
  have hall (hm : Meets uploadStep NoCutBetweenFrames (upload frames ending) ls) :
      Always uploadStep (NoTruncation (.new frames ending)) (upload frames ending) ls :=
    (hiff.mpr hm).imp hstep (fun _ hs hW => noTruncation_of_wholeEnd hs.toTransferInv hW) hinit
  refine ⟨hall,fun hn => ⟨fun hT => ?_,?_⟩⟩
  · by_cases herr : ∃ e, some (.error e) ∈ s.yielded
    · exact .inr herr
    · have hw := hT.last h ⟨hn,fun e he => herr ⟨e,he⟩⟩
      refine .inl (hiff.mp (always_of_last hstep (fun _ _ _ hs hst => wholeEnd_back hs hst) hinit h ?_))
      exact fun _ _ _ => hw
  · rintro (hm | herr)
    · exact hall hm
    · have hrun : Always uploadStep Unpresented (upload frames ending) ls :=
        always_of_last hstep (fun _ _ _ hs hst => unpresented_back hs.toTransferInv hst) hinit h fun _ => herr
      refine hrun.imp hstep (fun u _ hu hp => ?_) hinit
      obtain ⟨e,he⟩ := hu hp.1
      exact (hp.2 e he).elim

/-- The response body is dropped after the first of two frames, and the server
reads a request of one frame that ends cleanly. -/
def cutUpload : List TransferLabel :=
  [.send .poll,.send .begin,.send (.write 1),.send .flush,.send .sent,.send .abort,
   .deliver 1,.deliverEnd "",.recv,.recv]

theorem cutUpload_presented :
    ∃ s, exec uploadStep (upload [[1],[2]] .clean) cutUpload = some s ∧
      s.yielded = [some (.ok (.data [1])),none] ∧ s.sender.body.ended = false :=
  ⟨_,rfl,rfl,rfl⟩

theorem cutUpload_not_always :
    ¬ Always uploadStep (NoTruncation (.new [[1],[2]] .clean)) (upload [[1],[2]] .clean) cutUpload := by
  intro hall
  obtain ⟨s,hs,hy,he⟩ := cutUpload_presented
  have hp : PresentedComplete s.yielded := by rw [hy]; exact ⟨by decide,by simp⟩
  have hw := (hall.last hs hp).1
  rw [he] at hw
  cases hw

theorem truncated_request_presented :
    ¬ ∀ frames ending ls s, exec uploadStep (upload frames ending) ls = some s →
      Always uploadStep (NoTruncation (.new frames ending)) (upload frames ending) ls := by
  intro h
  obtain ⟨s,hs,-⟩ := cutUpload_presented
  exact cutUpload_not_always (h _ _ _ s hs)

theorem upload_truncation_cutUpload :
    ¬ Meets uploadStep NoCutBetweenFrames (upload [[1],[2]] .clean) cutUpload := by
  intro hm
  obtain ⟨s,hs,-⟩ := cutUpload_presented
  exact cutUpload_not_always ((upload_truncation hs).1 hm)

end GrpcQuic
