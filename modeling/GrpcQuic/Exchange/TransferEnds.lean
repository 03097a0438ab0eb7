import GrpcQuic.Core.SendLoopEnd
import GrpcQuic.Exchange.Completion

/-! # Every orderly transfer can come to its end

Wherever a sender, its wire and the reader at the other end stand: as long as nothing
has failed or got lost, the rest can be sent, delivered and read without a failure.
-/
namespace GrpcQuic
open Transition
variable {σ : Type*} {L : SendLoop σ} {b : Body}

/-- The sender has closed its wire in good order, or still can. -/
structure Sound (b : Body) (s : Sender σ) : Prop where
  inv : SenderInv b s
  opened : s.Open
  unbroken : s.wire.closing ≠ some .broken

section
variable {s t : Sender σ}

/-- Between two frames a wire does not break when it is dropped. -/
theorem leave_unbroken (hm : s.await.midFrame = false) (hc : s.wire.closing ≠ some .broken) :
    (s.leave L).wire.closing ≠ some .broken := by
  intro hb
  rcases leave_closing hb with hb | ⟨-,hm',-⟩ | ⟨-,-,hb⟩
  · exact hc hb
  · cases hm.symm.trans hm'
  · cases hb

theorem exit_unbroken (r : Exit × σ) (hm : s.await.midFrame = false) (hc : s.wire.closing ≠ some .broken) :
    (s.exit L r).wire.closing ≠ some .broken := by
  obtain ⟨e,loop⟩ := r
  cases e with
  | finish => exact hc
  | leave => exact leave_unbroken (s := { s with loop }) hm hc

theorem step_unbroken (hc : s.wire.closing ≠ some .broken) {l : SendLabel} (hl : l.orderly = true)
    (hst : s.step L l = some t) : t.wire.closing ≠ some .broken := by
  rcases step_cases hst with ⟨rfl,ha,rfl⟩ | ⟨rfl,op,-,-,rfl⟩ | ⟨n,d,rest,rfl,-,rfl⟩ |
    ⟨rfl,-,op,stage,-,-,rfl⟩ | ⟨rfl,op,ha,rfl⟩ | ⟨m,op,stage,rfl,-⟩ | ⟨rfl,-⟩
  · have hm : s.await.midFrame = false := by
      rw [ha]
      rfl
    unfold Sender.onFrame
    split
    · exact hc
    · exact hc
    · exact exit_unbroken _ hm hc
    · exact exit_unbroken _ hm hc
  · exact hc
  · exact hc
  · cases op with
    | head hd => exact hc
    | data d => exact hc
    | trailers tr => simp [Wire.flush]
    | finish => simp [Wire.flush]
  · have hm : s.await.midFrame = false := by
      rw [ha]
      rfl
    cases op with
    | head hd => exact hc
    | data d => exact hc
    | trailers tr => exact leave_unbroken hm hc
    | finish => exact leave_unbroken hm hc
  · cases hl
  · cases hl

theorem step_sound (h : Sound b s) {l : SendLabel} (hl : l.orderly = true) (hst : s.step L l = some t) :
    Sound b t :=
  ⟨(step_senderInv h.inv hst).1,step_open h.opened hst,step_unbroken h.unbroken hl hst⟩

theorem Sound.pull (h : Sound b s) (n : ℕ) :
    Sound b { s with wire := { s.wire with tape := s.wire.tape.pull n } } :=
  ⟨h.inv.pull n,h.opened,h.unbroken⟩

/-- On a wire that has not broken no send has to fail. -/
theorem Sound.orderly (h : Sound b s) {l : SendLabel} (hr : s.Runs l) (hst : s.step L l = some t) :
    l.orderly = true := by
  cases l with
  | failed m =>
    have haw := h.inv.await
    unfold Sender.AwaitInv at haw
    have hno {p : Prop} (hc : s.wire.closing = none) : p := (hr hc).elim
    rcases step_cases hst with ⟨hf,-⟩ | ⟨hf,-⟩ | ⟨n,d,rest,hf,-⟩ | ⟨hf,-⟩ | ⟨hf,-⟩ |
      ⟨m',op,stage,hf,ha,hs,-⟩ | ⟨hf,-⟩
    · cases hf
    · cases hf
    · cases hf
    · cases hf
    · cases hf
    · rw [ha] at haw
      cases op with
      | head hd => exact hno haw.1
      | data d => exact hno haw.1
      | trailers tr => exact hno (haw.2.2.trans (if_neg hs))
      | finish =>
        rcases haw with hb | ⟨-,-,hc⟩
        · exact (h.unbroken hb).elim
        · exact hno (hc.trans (if_neg hs))
    · cases hf
  | abort => exact hr.elim
  | _ => rfl

/-- A sound task can come to its end without a failure, with its wire closed. -/
theorem Sound.ends (h : Sound b s) :
    CanMeet (Sender.step L) (fun _ l => l.orderly = true) (fun t => t.await = .left) s := by
  refine (sender_ends h.opened).imp (I := Sound b) ?_ h
  intro u l t hu hr hst
  have hl := hu.orderly hr hst
  exact ⟨hl,step_sound hu hl hst⟩

end

section
variable {s t : Transfer σ}

theorem pollFrame_ending (body : ServerRecvBody RecvHalf) {m : String}
    (h : body.pollFrame.2.stream.ending = some (.error m)) : body.stream.ending = some (.error m) := by
  obtain ⟨⟨chunks,ending⟩,dd,td⟩ := body
  rcases ending with _ | e | _ | tr <;> cases dd <;> cases td <;>
    rcases chunks with _ | ⟨_ | ⟨b,d⟩,_ | ⟨d',rest⟩⟩ <;> first | exact h | cases h

structure Smooth (b : Body) (s : Transfer σ) : Prop where
  inv : TransferInv b s
  sound : Sound b s.sender
  kept : ∀ m, s.body.stream.ending ≠ some (.error m)

theorem step_smooth (h : Smooth b s) {l : TransferLabel} (hl : l.orderly = true) (hst : s.step L l = some t) :
    Smooth b t := by
  refine ⟨step_transferInv h.inv hst,?_,?_⟩
  · rcases Transfer.step_sender hst with ⟨m,sender,rfl,hs,rfl⟩ | ⟨-,he | ⟨n,he⟩⟩
    · exact step_sound h.sound hl hs
    · rw [he]
      exact h.sound
    · rw [he]
      exact h.sound.pull n
  · intro m hm
    cases l with
    | send l =>
      obtain ⟨sender,-,rfl⟩ := Option.map_eq_some_iff.mp hst
      exact h.kept m hm
    | deliver n =>
      obtain ⟨⟨w,half⟩,hd,rfl⟩ := Option.map_eq_some_iff.mp hst
      obtain ⟨-,chunk,-,rfl,rfl⟩ := deliver_cases hd
      exact h.kept m hm
    | deliverEnd m' =>
      obtain ⟨half,hd,rfl⟩ := Option.map_eq_some_iff.mp hst
      unfold Wire.deliverEnd at hd
      split at hd
      · rename_i c he hc
        split at hd
        · cases hd
          cases c with
          | fin => cases hm
          | trailers tr => cases hm
          | broken => exact h.sound.unbroken hc
        · cases hd
      · cases hd
    | lose m' => cases hl
    | recv =>
      refine h.kept m (pollFrame_ending s.body ?_)
      simp only [Transfer.step] at hst
      split at hst <;> rename_i hp <;> cases hst <;> rw [hp] <;> exact hm

/-- Without an empty frame in front of another one the reader is shown no error. -/
theorem Smooth.clean (h : Smooth b s) (hb : [] ∉ b.frames.dropLast) (e : CoreError) :
    some (.error e) ∉ s.yielded := by
  intro he
  rcases h.inv.error_cause he with ⟨m,hm⟩ | hmem
  · exact h.kept m hm
  · exact hb hmem

abbrev CanEnd (L : SendLoop σ) (s : Transfer σ) : Prop :=
  CanMeet (Transfer.step L) (fun _ l => l.orderly = true) (fun t => none ∈ t.yielded) s

theorem done_reads (hd : s.body.dataDone = true) (htd : s.body.trailersDone = true) : CanEnd L s :=
  .next .recv rfl (recv_again hd htd) (.now (List.mem_append_right _ (List.mem_singleton_self none)))

/-- Past the data, a poll that finds the end of the stream or a frame in its way is the last
but one. -/
theorem drained_reads (half : RecvHalf) (he : half.ending ≠ none)
    (hp : s.body.pollFrame = ServerRecvBody.pollFrame ⟨half,true,false⟩) : CanEnd L s := by
  obtain ⟨r,half',hq⟩ : ∃ r half', s.body.pollFrame = (.ready r,⟨half',true,true⟩) := by
    rcases half.pollFrame_drained with ⟨-,hn,-⟩ | ⟨m,-,hq⟩ | ⟨o,-,-,hq⟩
    · exact (he hn).elim
    · exact ⟨_,_,hp.trans hq⟩
    · exact ⟨_,_,hp.trans hq⟩
  have hst : s.step L .recv = some { s with body := ⟨half',true,true⟩, yielded := s.yielded ++ [r] } := by
    simp only [Transfer.step,hq]
  exact .next .recv rfl hst (done_reads rfl rfl)

theorem arrived_reads {o : Option HeaderMap} (h : Reading s) (he : s.body.stream.ending = some (.ok o)) :
    CanEnd L s := by
  have hsome : s.body.stream.ending ≠ none := by
    rw [he]
    exact nofun
  cases hd : s.body.dataDone with
  | true =>
    cases htd : s.body.trailersDone with
    | true => exact done_reads hd htd
    | false =>
      obtain ⟨sender,⟨half,dd,td⟩,ys⟩ := s
      cases hd
      cases htd
      exact drained_reads _ hsome rfl
  | false =>
    have htd := (h.undone hd).1
    clear h
    induction hch : s.body.stream.chunks generalizing s with
    | nil =>
      obtain ⟨sender,⟨⟨chunks,ending⟩,dd,td⟩,ys⟩ := s
      cases he
      cases hd
      cases htd
      cases hch
      exact drained_reads _ hsome rfl
    | cons d rest ih =>
      obtain ⟨sender,⟨⟨chunks,ending⟩,dd,td⟩,ys⟩ := s
      cases he
      cases hd
      cases htd
      cases hch
      cases d with
      | nil => exact drained_reads ⟨rest,some (.ok o)⟩ hsome rfl
      | cons b d => exact .next .recv rfl rfl (ih rfl hsome rfl rfl rfl)

theorem exists_piece {wire : Wire} (h : ¬ wire.tape.Exhausted) : ∃ chunk, wire.piece 1 = some chunk := by
  have hlt : wire.tape.taken < wire.tape.written.length := Nat.lt_of_le_of_ne wire.tape.taken_le h
  obtain ⟨x,rest,hx⟩ := List.exists_cons_of_ne_nil (List.ne_nil_of_length_pos
    (by rw [List.length_drop]; omega : 0 < (wire.tape.written.drop wire.tape.taken).length))
  have hnext : wire.tape.next 1 = [x] := by rw [Tape.next,hx]; rfl
  unfold Wire.piece
  rw [hnext]
  cases x with
  | none => exact ⟨[],rfl⟩
  | some b => exact ⟨[b],rfl⟩

theorem closed_arrives (h : Smooth b s) {c : Closing} (hc : s.sender.wire.closing = some c) :
    CanMeet (Transfer.step L) (fun _ l => l.orderly = true) (fun t => ∃ o, t.body.stream.ending = some (.ok o)) s := by
  induction hn : s.sender.wire.tape.written.length - s.sender.wire.tape.taken using Nat.strong_induction_on
    generalizing s with
  | h n ih =>
    cases he : s.body.stream.ending with
    | some e =>
      cases e with
      | ok o => exact .now ⟨o,he⟩
      | error m => exact (h.kept m he).elim
    | none =>
      by_cases hx : s.sender.wire.tape.Exhausted
      · obtain ⟨o,ho⟩ : ∃ o, c.arrival "" = .ok o := by
          cases c with
          | broken => exact (h.sound.unbroken hc).elim
          | fin => exact ⟨none,rfl⟩
          | trailers tr => exact ⟨some tr,rfl⟩
        have hend : s.step L (.deliverEnd "") = some (s.setHalf { s.body.stream with ending := some (.ok o) }) := by
          simp only [Transfer.step,Wire.deliverEnd,he,hc,hx,if_true,ho,Option.map_some]
        exact .next _ rfl hend (.now ⟨o,rfl⟩)
      · obtain ⟨chunk,hp⟩ := exists_piece hx
        have hst : s.step L (.deliver 1) = some { s.setHalf { s.body.stream with
              chunks := s.body.stream.chunks ++ [chunk] } with
            sender := { s.sender with wire := { s.sender.wire with
              tape := s.sender.wire.tape.pull (frameCells chunk).length } } } := by
          simp only [Transfer.step,Wire.deliver,he,hp,Option.map_some]
        refine .next _ rfl hst (ih _ ?_ (step_smooth h rfl hst) hc rfl)
        have hlen : 0 < (frameCells chunk).length := List.length_pos_of_ne_nil (frameCells_ne_nil chunk)
        have hlt := Nat.lt_of_le_of_ne s.sender.wire.tape.taken_le hx
        simp only [Tape.pull,piece_next hp]
        omega

theorem Smooth.closes (h : Smooth b s) :
    CanMeet (Transfer.step L) (fun _ l => l.orderly = true)
      (fun t => Smooth b t ∧ ∃ c, t.sender.wire.closing = some c) s := by
  have hends : CanMeet (Transfer.step L) (fun _ l => l.orderly = true) (fun t => t.sender.await = .left) s := by
    refine CanMeet.lift (R := fun (u : Sender σ) (v : Transfer σ) => v.sender = u) TransferLabel.send ?_ ?_ rfl
      (h.sound.ends (L := L))
    · rintro u v l t rfl hl hst
      refine ⟨hl,{ v with sender := t },?_,rfl⟩
      simp only [Transfer.step,hst,Option.map_some]
    · rintro u v rfl ha
      exact ha
  refine (hends.along (fun _ _ _ hs hl hst => step_smooth hs hl hst) h).mono ?_
  rintro t ⟨ht,ha⟩
  have haw := ht.sound.inv.await
  unfold Sender.AwaitInv at haw
  rw [ha] at haw
  exact ⟨ht,Option.ne_none_iff_exists'.mp haw⟩

/-- From every state of an orderly transfer its reader can be shown the end. -/
theorem Smooth.ends (h : Smooth b s) : CanEnd L s := by
  refine (h.closes (L := L)).trans ?_
  rintro t ⟨ht,c,hc⟩
  refine ((closed_arrives ht hc).along (fun _ _ _ hs hl hst => step_smooth hs hl hst) ht).trans ?_
  rintro u ⟨hu,o,ho⟩
  exact arrived_reads hu.inv.reading ho

end

end GrpcQuic
