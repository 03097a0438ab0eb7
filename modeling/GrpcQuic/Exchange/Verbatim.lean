import GrpcQuic.Exchange.Upload
import GrpcQuic.Exchange.Download

/-! # Payloads pass unchanged

Both directions of a call carry the data of the sending body in order, and an
orderly run that reaches the end without a receive error carries all of it and
the trailers once.
-/
namespace GrpcQuic
open Transition
variable {frames : List Bytes} {ending : Ending} {ls : List TransferLabel} {s : Transfer Forwarder}

theorem promises_forward (frames : List Bytes) (ending : Ending) :
    Promises (.new frames ending) (.forward (.new frames ending)) :=
  ⟨senderInv_forward frames ending,nofun,nofun⟩

theorem smooth_upload (frames : List Bytes) (ending : Ending) :
    Smooth (.new frames ending) (upload frames ending) :=
  ⟨(uploadInv_init frames ending).toTransferInv,
    ⟨senderInv_forward frames ending,rfl,by rintro ⟨⟩⟩,by rintro m ⟨⟩⟩

theorem upload_transferInv (h : exec uploadStep (upload frames ending) ls = some s) :
    TransferInv (.new frames ending) s :=
  exec_invariant (fun _ _ _ hs hst => step_transferInv hs hst)
    (uploadInv_init frames ending).toTransferInv h

theorem upload_promises (h : exec uploadStep (upload frames ending) ls = some s)
    (hord : ∀ l ∈ ls, l.orderly = true) : Promises (.new frames ending) s.sender :=
  transfer_promises (s := upload frames ending) (promises_forward frames ending) hord h

theorem upload_shown (h : exec uploadStep (upload frames ending) ls = some s)
    (hord : ∀ l ∈ ls, l.orderly = true) (hn : none ∈ s.yielded) (herr : ∀ e, some (.error e) ∉ s.yielded) :
    ∃ ds k, s.yielded = dataFrames ds ++ ending.shown ++ List.replicate k none ∧
      ds.flatten = frames.flatten :=
  (upload_transferInv h).shown (upload_promises h hord) hn herr

/-- Only an empty frame in front of another one is an error for an orderly request. -/
theorem upload_clean (h : exec uploadStep (upload frames ending) ls = some s)
    (hord : ∀ l ∈ ls, l.orderly = true) (hf : [] ∉ frames.dropLast) (e : CoreError) :
    some (.error e) ∉ s.yielded := by
  have hS : Smooth (.new frames ending) s :=
    exec_invariant_of_labels (fun _ _ _ hu hl hst => step_smooth hu hl hst) (smooth_upload frames ending) hord h
  exact hS.clean hf e

/-- Requests and responses are forwarded verbatim: in every state the bytes read
are a prefix of the bytes produced, and an orderly, undisturbed reading that has
seen the end without a receive error is the body's data, then its trailers if it
has any, then the end. Such a run has a receive error only for a body with an
empty frame in front of another one, which h3 does not accept. -/
theorem payload_verbatim (frames : List Bytes) (ending : Ending) :
    (∀ ls s, exec uploadStep (upload frames ending) ls = some s →
      yieldedData s.yielded <+: s.sender.produced.flatten ∧
      ((∀ l ∈ ls, l.orderly = true) →
        ((∀ e, ending ≠ .error e) → none ∈ s.yielded → (∀ e, some (.error e) ∉ s.yielded) →
          ∃ ds k, s.yielded = dataFrames ds ++ ending.shown ++ List.replicate k none ∧
            ds.flatten = frames.flatten) ∧
        ([] ∉ frames.dropLast → ∀ e, some (.error e) ∉ s.yielded))) ∧
    ∀ head deadline ls s, exec Download.step (download head frames ending deadline) ls = some s →
      yieldedData s.yielded <+: s.sender.produced.flatten ∧
      (Meets Download.step Undisturbed (download head frames ending deadline) ls →
        (∀ l ∈ ls, l.orderly = true) →
        ((∀ e, ending ≠ .error e) → none ∈ s.yielded → (∀ e, some (.error e) ∉ s.yielded) →
          ∃ ds k, s.yielded = dataFrames ds ++ ending.shown ++ List.replicate k none ∧
            ds.flatten = frames.flatten) ∧
        ([] ∉ frames.dropLast → ∀ e, some (.error e) ∉ s.yielded)) := by
  constructor
  · intro ls s h
    refine ⟨(upload_transferInv h).read_of_produced,fun hord => ⟨fun _ hn herr => ?_,fun hf e => ?_⟩⟩
    · exact upload_shown h hord hn herr
    · exact upload_clean h hord hf e
  · intro head deadline ls s h
    refine ⟨?_,fun hU hord => ⟨fun _ hn herr => download_shown h hU hord hn herr,fun hf e => ?_⟩⟩
    · obtain ⟨u,hu,hR,-⟩ := download_refines h
      rw [hR.data,← hR.sender]
      exact hu.read_of_produced
    · obtain ⟨u,hS,-,-,hy⟩ := download_exact h hU hord
      exact hy ▸ hS.clean hf e

/-- Three frames, the last one empty, cut anew on the way, and trailers. -/
def chunkedUpload : List TransferLabel :=
  [.send .poll,.send .begin,.send (.write 2),.recv,.deliver 1,.recv,.send (.write 1),.send .flush,.send .sent,
   .send .poll,.send .begin,.send (.write 1),.send .flush,.send .sent,.deliver 5,.recv,.send .poll,.send .begin,
   .send .flush,.send .sent,.send .poll,.send .begin,.send .flush,.send .sent,.deliver 1,.deliverEnd "",
   .recv,.recv]

theorem payload_verbatim_chunkedUpload :
    ∃ s, exec uploadStep (upload [[1,2,3],[4],[]] (.trailers [("grpc-status","0")])) chunkedUpload = some s ∧
      none ∈ s.yielded ∧ ∃ ds k, s.yielded =
        dataFrames ds ++ [some (.ok (.trailers [("grpc-status","0")])),none] ++ List.replicate k none ∧
        ds.flatten = [1,2,3,4] := by
  refine ⟨_,rfl,by decide,?_⟩
  have hrun := (payload_verbatim [[1,2,3],[4],[]] (.trailers [("grpc-status","0")])).1 chunkedUpload _ rfl
  have hord : ∀ l ∈ chunkedUpload, l.orderly = true := by decide
  exact (hrun.2 hord).1 nofun (by decide) ((hrun.2 hord).2 (by decide))

end GrpcQuic
