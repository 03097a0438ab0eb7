import GrpcQuic.Exchange.Transfer

/-! # Orderly runs and their end

In an orderly run nothing fails, is aborted or gets lost. What its reader is
shown at the end depends on the body alone.
-/
namespace GrpcQuic
open Transition
variable {σ : Type*} {L : SendLoop σ} {b : Body} {s t : Transfer σ}

def SendLabel.orderly : SendLabel → Bool
  | failed _ => false
  | abort => false
  | _ => true

def TransferLabel.orderly : TransferLabel → Bool
  | send l => l.orderly
  | lose _ => false
  | _ => true

/-- What a reader is shown after the data of a body that was sent in an orderly way. -/
def Ending.shown : Ending → List FrameResult
  | clean => [none]
  | trailers t => [some (.ok (.trailers t)),none]
  | error _ => [none]

structure Promises (b : Body) (s : Sender σ) : Prop where
  inv : SenderInv b s
  whole : EndInv b s
  mark : FinInv b s

theorem Promises.step {sender sender' : Sender σ} (h : Promises b sender) {l : SendLabel}
    (hl : l.orderly = true) (hst : sender.step L l = some sender') : Promises b sender' := by
  have hab : l ≠ .abort := by
    rintro rfl
    cases hl
  have hs := step_senderInv h.inv hst
  exact ⟨hs.1,hs.2 (fun he => (hab he).elim) h.whole,step_finInv h.inv h.mark hab hst⟩

theorem Promises.pull {sender : Sender σ} (h : Promises b sender) (n : ℕ) :
    Promises b { sender with wire := { sender.wire with tape := sender.wire.tape.pull n } } :=
  ⟨h.inv.pull n,h.whole,h.mark⟩

theorem transfer_promises {ls : List TransferLabel} (hs : Promises b s.sender)
    (hord : ∀ l ∈ ls, l.orderly = true) (h : exec (Transfer.step L) s ls = some t) :
    Promises b t.sender := by
  refine exec_invariant_of_labels (I := fun u : Transfer σ => Promises b u.sender) ?_ hs hord h
  intro u l v hu hl hst
  rcases Transfer.step_sender hst with ⟨m,sender,rfl,hsend,rfl⟩ | ⟨-,he | ⟨n,he⟩⟩
  · exact hu.step hl hsend
  · exact he ▸ hu
  · exact he ▸ hu.pull n

/-- No whole body that is read to the end without an error has an empty frame in front of
another one. -/
theorem TransferInv.solid (h : TransferInv b s) (hE : EndInv b s.sender) (hn : none ∈ s.yielded)
    (herr : ∀ e, some (.error e) ∉ s.yielded) : [] ∉ b.frames.dropLast := by
  obtain ⟨-,c,-,hc,hne,-,-,hlast⟩ := h.ended hn herr
  rw [(hE c hc hne).2] at hlast
  exact fun hf => hlast ((none_mem_dropLast_cells b.frames).mpr hf)

/-- All that a finished reading of a well-closed wire can be. -/
theorem TransferInv.shown (h : TransferInv b s) (hP : Promises b s.sender) (hn : none ∈ s.yielded)
    (herr : ∀ e, some (.error e) ∉ s.yielded) :
    ∃ ds k, s.yielded = dataFrames ds ++ b.ending.shown ++ List.replicate k none ∧ ds.flatten = b.data := by
  obtain ⟨ds,c,k,hc,hne,hy,hw,-⟩ := h.ended hn herr
  have hdata : s.sender.wire.tape.written.reduceOption = b.data := by
    rw [(hP.whole c hc hne).2,Body.cells,reduceOption_cells,Body.data]
  refine ⟨ds,?_⟩
  cases c with
  | broken => exact (hne rfl).elim
  | fin =>
    have hs : b.ending.shown = [none] := by
      cases he : b.ending with
      | trailers t => exact (hP.mark hc t he).elim
      | clean => rfl
      | error _ => rfl
    exact ⟨k,by rw [hs]; exact hy,hw.trans hdata⟩
  | trailers t =>
    have hs : b.ending.shown = [some (.ok (.trailers t)),none] := by rw [h.sender.trailed t hc]; rfl
    cases k with
    | zero =>
      rw [hy] at hn
      simp [dataFrames,Closing.results] at hn
    | succ k =>
      refine ⟨k,?_,hw.trans hdata⟩
      rw [hy,hs,List.replicate_succ]
      simp only [Closing.results,List.append_assoc,List.cons_append,List.nil_append]

end GrpcQuic
