import GrpcQuic.Core.SendLoop
import Mathlib.Data.List.ReduceOption

/-! # What a sending loop has put on the wire

For every loop and every schedule the wire holds a prefix of what the body has
produced. As long as nobody aborts the task between two frames, a wire that
closes without breaking off carries the whole body.
-/
namespace GrpcQuic
open Transition

def Body.data (body : Body) : Bytes := body.frames.flatten

def Body.cells (body : Body) : List (Option UInt8) := body.frames.flatMap frameCells

theorem frameCells_reduce (data : Bytes) : (frameCells data).reduceOption = data := by
  have hsome : (data.map some).reduceOption = data := by
    rw [List.reduceOption,List.filterMap_map]
    exact List.filterMap_some
  cases data with
  | nil => rfl
  | cons b rest => simpa [frameCells,emptyMark] using hsome

theorem frameCells_ne_nil (data : Bytes) : frameCells data ≠ [] := by
  cases data with
  | nil => exact List.cons_ne_nil none []
  | cons b rest => exact List.cons_ne_nil (some b) _

theorem none_mem_frameCells {data : Bytes} : none ∈ frameCells data ↔ data = [] := by
  cases data with
  | nil => exact ⟨fun _ => rfl,fun _ => List.mem_singleton_self _⟩
  | cons b rest => simp [frameCells,emptyMark]

theorem dropLast_prefix_dropLast {α : Type*} {xs ys : List α} (h : xs <+: ys) : xs.dropLast <+: ys.dropLast := by
  obtain ⟨rest,rfl⟩ := h
  by_cases hr : rest = []
  · rw [hr,List.append_nil]
  · rw [List.dropLast_append_of_ne_nil hr]
    exact (List.dropLast_prefix xs).trans (List.prefix_append ..)

/-- The tape has a mark in front of its end exactly when an empty frame stands in front
of another one. -/
theorem none_mem_dropLast_cells (frames : List Bytes) :
    none ∈ (frames.flatMap frameCells).dropLast ↔ [] ∈ frames.dropLast := by
  rcases frames.eq_nil_or_concat with rfl | ⟨front,last,rfl⟩
  · exact ⟨nofun,nofun⟩
  · have hlast : none ∉ (frameCells last).dropLast := by
      cases last with
      | nil => exact List.not_mem_nil
      | cons b rest => exact fun h => List.cons_ne_nil _ _ (none_mem_frameCells.mp (List.dropLast_subset _ h))
    have hcells : ((front ++ [last]).flatMap frameCells).dropLast =
        front.flatMap frameCells ++ (frameCells last).dropLast := by
      rw [List.flatMap_append,List.flatMap_singleton,List.dropLast_append_of_ne_nil (frameCells_ne_nil last)]
    rw [List.concat_eq_append,hcells,List.dropLast_concat,List.mem_append,or_iff_left hlast,List.mem_flatMap]
    constructor
    · rintro ⟨d,hd,hn⟩
      rw [none_mem_frameCells.mp hn] at hd
      exact hd
    · exact fun h => ⟨[],h,List.mem_singleton_self _⟩

theorem reduceOption_cells (frames : List Bytes) : (frames.flatMap frameCells).reduceOption = frames.flatten := by
  induction frames with
  | nil => rfl
  | cons d rest ih => rw [List.flatMap_cons,List.reduceOption_append,frameCells_reduce,ih,List.flatten_cons]

theorem Body.next_of_cons {body : Body} {d : Bytes} {rest : List Bytes} (h : body.frames = d :: rest) :
    body.next = (some (.ok (.data d)),{ body with frames := rest }) := by
  unfold Body.next
  rw [h]

theorem Body.next_of_nil {body : Body} (h : body.frames = []) (he : body.ended = false) :
    body.next = (body.ending.result,body.finish) := by
  unfold Body.next
  rw [h]
  simp only [he,Bool.false_eq_true,↓reduceIte]

variable {σ : Type*} {L : SendLoop σ} {b : Body} {s t : Sender σ}

structure SenderFrame (b : Body) (s : Sender σ) : Prop where
  stock : s.produced ++ s.body.frames = b.frames
  ending : s.body.ending = b.ending
  drained : s.body.ended = true → s.body.frames = []
  front : s.wire.tape.written <+: s.produced.flatMap frameCells
  trailed : ∀ t, s.wire.closing = some (.trailers t) → b.ending = .trailers t

def Sender.AwaitInv (b : Body) (s : Sender σ) : Prop :=
  match s.await with
  | .body | .send (.head _) _ | .send (.data _) _ => s.wire.closing = none ∧ s.body.ended = false
  | .send (.trailers t) stage => s.body.ended = true ∧ b.ending = .trailers t ∧
      s.wire.closing = if stage = .flushed then some (.trailers t) else none
  | .send .finish stage => s.wire.closing = some .broken ∨
      (s.body.ended = true ∧ (∀ t, b.ending ≠ .trailers t) ∧
        s.wire.closing = if stage = .flushed then some .fin else none)
  | .left => s.wire.closing ≠ none

structure SenderInv (b : Body) (s : Sender σ) : Prop extends SenderFrame b s where
  whole : s.wire.closing = none → s.wire.tape.written ++ s.await.unsent = s.produced.flatMap frameCells
  await : s.AwaitInv b

/-- A wire closed in good order carries the whole body. -/
def EndInv (b : Body) (s : Sender σ) : Prop :=
  ∀ c, s.wire.closing = some c → c ≠ .broken →
    s.body.ended = true ∧ s.wire.tape.written = b.cells

/-- A wire that is simply finished leaves out no trailers. -/
def FinInv (b : Body) (s : Sender σ) : Prop :=
  s.wire.closing = some .fin → ∀ t, b.ending ≠ .trailers t

/-- An abort finds the wire closed, the task inside a frame, or its body ended. -/
def OrderlyAbort (s : Sender σ) (l : SendLabel) : Prop :=
  l = .abort → s.wire.closing ≠ none ∨ s.await.midFrame = true ∨ s.body.ended = true

theorem leave_closing {c : Closing} (hc : (s.leave L).wire.closing = some c) :
    s.wire.closing = some c ∨ (s.wire.closing = none ∧ s.await.midFrame = true ∧ c = .broken) ∨
      (s.wire.closing = none ∧ s.await.midFrame = false ∧ c = .fin) := by
  cases hcl : s.wire.closing with
  | some c' =>
    simp only [Sender.leave,Wire.dropSend,hcl,Option.getD_some] at hc
    exact .inl hc
  | none =>
    simp only [Sender.leave,Wire.dropSend,hcl,Option.getD_none,Option.some.injEq] at hc
    cases hm : s.await.midFrame with
    | true => rw [hm] at hc; exact .inr (.inl ⟨rfl,rfl,hc.symm⟩)
    | false => rw [hm] at hc; exact .inr (.inr ⟨rfl,rfl,hc.symm⟩)

/-- Dropped between two frames, an open send half is finished. -/
theorem leave_fin (hc : s.wire.closing = none) (hm : s.await.midFrame = false) :
    (s.leave L).wire.closing = some .fin := by
  simp only [Sender.leave,Wire.dropSend,hc,hm,Option.getD_none,Bool.false_eq_true,↓reduceIte]

theorem SenderFrame.leave (h : SenderFrame b s) : SenderInv b (s.leave L) := by
  refine ⟨⟨h.stock,h.ending,h.drained,h.front,fun t ht => ?_⟩,nofun,nofun⟩
  rcases leave_closing ht with hc | ⟨-,-,hc⟩ | ⟨-,-,hc⟩
  · exact h.trailed t hc
  · cases hc
  · cases hc

/-- Leaving adds no good end of its own except an implicit finish between frames. -/
theorem EndInv.leave (h : EndInv b s)
    (hfin : s.wire.closing = none → s.await.midFrame = false →
      s.body.ended = true ∧ s.wire.tape.written = b.cells) : EndInv b (s.leave L) := by
  intro c hc hne
  rcases leave_closing hc with hc | ⟨-,-,rfl⟩ | ⟨hn,hm,rfl⟩
  · exact h c hc hne
  · exact (hne rfl).elim
  · exact hfin hn hm

theorem SenderInv.written (h : SenderInv b s) (hc : s.wire.closing = none) (hu : s.await.unsent = []) :
    s.wire.tape.written = s.produced.flatMap frameCells := by
  have hw := h.whole hc
  rwa [hu,List.append_nil] at hw

/-- Past the end of the body the wire has everything that is not in hand. -/
theorem SenderInv.complete (h : SenderInv b s) (hc : s.wire.closing = none) (hu : s.await.unsent = [])
    (he : s.body.ended = true) : s.wire.tape.written = b.cells := by
  have hs := h.stock
  rw [h.drained he,List.append_nil] at hs
  rw [h.written hc hu,hs,Body.cells]

theorem SenderFrame.exit (h : SenderFrame b s) (r : Exit × σ)
    (hcl : s.wire.closing = some .broken ∨
      (s.wire.closing = none ∧ s.wire.tape.written = s.produced.flatMap frameCells ∧ s.body.ended = true ∧
        ∀ t, b.ending ≠ .trailers t)) : SenderInv b (s.exit L r) := by
  obtain ⟨e,loop⟩ := r
  cases e with
  | leave =>
    have hframe : SenderFrame b { s with loop } := ⟨h.stock,h.ending,h.drained,h.front,h.trailed⟩
    exact hframe.leave
  | finish =>
    refine ⟨⟨h.stock,h.ending,h.drained,h.front,h.trailed⟩,?_,?_⟩
    · intro hn
      rcases hcl with hb | ⟨-,hw,-⟩
      · exact (Option.some_ne_none _ (hb.symm.trans hn)).elim
      · simpa only [Sender.exit,Await.unsent,List.append_nil] using hw
    · rcases hcl with hb | ⟨hn,-,he,ht⟩
      · exact .inl hb
      · exact .inr ⟨he,ht,hn⟩

theorem EndInv.exit (h : EndInv b s) (r : Exit × σ)
    (hfin : s.wire.closing = none → s.await.midFrame = false →
      s.body.ended = true ∧ s.wire.tape.written = b.cells) : EndInv b (s.exit L r) := by
  obtain ⟨e,loop⟩ := r
  cases e with
  | leave =>
    have hend : EndInv b { s with loop } := h
    exact hend.leave hfin
  | finish => exact h

theorem SenderInv.poll (h : SenderInv b s) (ha : s.await = .body) :
    SenderInv b ({ s with body := s.body.next.2 }.onFrame L s.body.next.1) ∧
      (EndInv b s → EndInv b ({ s with body := s.body.next.2 }.onFrame L s.body.next.1)) := by
  obtain ⟨hc,he⟩ : s.wire.closing = none ∧ s.body.ended = false := by
    have haw := h.await
    unfold Sender.AwaitInv at haw
    rwa [ha] at haw
  have hw := h.written hc (by rw [ha]; rfl)
  cases hf : s.body.frames with
  | cons d rest =>
    rw [Body.next_of_cons hf]
    have hs := h.stock
    rw [hf,List.append_cons] at hs
    have hmore : (s.produced ++ [d]).flatMap frameCells = s.produced.flatMap frameCells ++ frameCells d := by
      rw [List.flatMap_append,List.flatMap_singleton]
    refine ⟨⟨⟨hs,h.ending,?_,?_,h.trailed⟩,?_,⟨hc,he⟩⟩,?_⟩
    · exact fun ht => (Bool.false_ne_true (he.symm.trans ht)).elim
    · exact h.front.trans ⟨_,hmore.symm⟩
    · intro _
      simp only [Sender.onFrame,Await.unsent,hw,hmore]
    · intro _ c hcc
      exact (Option.some_ne_none c (hcc.symm.trans hc)).elim
  | nil =>
    rw [Body.next_of_nil hf he]
    have hs := h.stock
    rw [hf,List.append_nil] at hs
    have hdata : s.wire.tape.written = b.cells := by rw [hw,hs,Body.cells]
    have hframe : SenderFrame b { s with body := s.body.finish } :=
      ⟨h.stock,h.ending,fun _ => hf,h.front,h.trailed⟩
    have hend : EndInv b { s with body := s.body.finish } :=
      fun c hcc => (Option.some_ne_none c (hcc.symm.trans hc)).elim
    cases hb : s.body.ending with
    | clean =>
      have ht : ∀ t, b.ending ≠ .trailers t := by rw [← h.ending,hb]; exact nofun
      exact ⟨hframe.exit _ (.inr ⟨hc,hw,rfl,ht⟩),fun _ => hend.exit _ fun _ _ => ⟨rfl,hdata⟩⟩
    | error e =>
      have ht : ∀ t, b.ending ≠ .trailers t := by rw [← h.ending,hb]; exact nofun
      exact ⟨hframe.exit _ (.inr ⟨hc,hw,rfl,ht⟩),fun _ => hend.exit _ fun _ _ => ⟨rfl,hdata⟩⟩
    | trailers t =>
      refine ⟨⟨⟨h.stock,h.ending,fun _ => hf,h.front,h.trailed⟩,?_,?_⟩,fun _ => hend⟩
      · intro _
        exact (List.append_nil _).trans hw
      · exact ⟨rfl,h.ending.symm.trans hb,hc⟩

/-- Progress inside the operation in hand: bytes move from the task to the wire. -/
theorem SenderInv.advance (h : SenderInv b s) {op : SendOp} {stage stage' : Stage}
    {moved : List (Option UInt8)}
    (ha : s.await = .send op stage)
    (hm : moved ++ (Await.send op stage').unsent = (Await.send op stage).unsent)
    (hop : op ≠ .finish) (hst : stage ≠ .flushed) (hst' : stage' ≠ .flushed) :
    SenderInv b { s with
        await := .send op stage'
        wire := { s.wire with tape := s.wire.tape.append moved } } ∧
      (EndInv b s → EndInv b { s with
        await := .send op stage'
        wire := { s.wire with tape := s.wire.tape.append moved } }) := by
  have haw := h.await
  unfold Sender.AwaitInv at haw
  rw [ha] at haw
  have hc : s.wire.closing = none := by
    cases op with
    | head _ => exact haw.1
    | data _ => exact haw.1
    | trailers _ => exact haw.2.2.trans (if_neg hst)
    | finish => exact (hop rfl).elim
  have hwhole := h.whole hc
  rw [ha,← hm,← List.append_assoc] at hwhole
  refine ⟨⟨⟨h.stock,h.ending,h.drained,?_,h.trailed⟩,fun _ => hwhole,?_⟩,?_⟩
  · exact ⟨_,hwhole⟩
  · cases op with
    | head _ => exact haw
    | data _ => exact haw
    | trailers _ => exact ⟨haw.1,haw.2.1,hc.trans (if_neg hst').symm⟩
    | finish => exact (hop rfl).elim
  · intro _ c hcc
    exact (Option.some_ne_none c (hcc.symm.trans hc)).elim

theorem flush_written (wire : Wire) (op : SendOp) :
    (wire.flush op).tape.written = wire.tape.written ++ op.mark := by
  cases op with
  | data d => rfl
  | _ => exact (List.append_nil _).symm

theorem SenderInv.flush (h : SenderInv b s) {op : SendOp} {stage : Stage}
    (ha : s.await = .send op stage) (hu : (Await.send op stage).unsent = op.mark)
    (hc : s.wire.closing = none) :
    SenderInv b { s with await := .send op .flushed, wire := s.wire.flush op } ∧
      EndInv b { s with await := .send op .flushed, wire := s.wire.flush op } := by
  have haw := h.await
  unfold Sender.AwaitInv at haw
  rw [ha] at haw
  have hwhole := h.whole hc
  rw [ha,hu] at hwhole
  have hunsent : (Await.send op .flushed).unsent = [] := by cases op <;> rfl
  have hw : (s.wire.flush op).tape.written = s.produced.flatMap frameCells :=
    (flush_written ..).trans hwhole
  have hframe : SenderFrame b { s with await := .send op .flushed, wire := s.wire.flush op } := by
    refine ⟨h.stock,h.ending,h.drained,by rw [hw],fun t ht => ?_⟩
    cases op with
    | head _ => exact h.trailed t ht
    | data _ => exact h.trailed t ht
    | trailers _ => cases ht; exact haw.2.1
    | finish => cases ht
  refine ⟨⟨hframe,fun _ => by rw [hunsent,List.append_nil]; exact hw,?_⟩,?_⟩
  · cases op with
    | head _ => exact haw
    | data _ => exact haw
    | trailers _ => exact ⟨haw.1,haw.2.1,rfl⟩
    | finish =>
      rcases haw with hb | ⟨he,ht,-⟩
      · rw [hc] at hb; cases hb
      · exact .inr ⟨he,ht,rfl⟩
  · have hdone (he : s.body.ended = true) : (s.wire.flush op).tape.written = b.cells := by
      have hs := h.stock
      rw [h.drained he,List.append_nil] at hs
      rw [hw,hs,Body.cells]
    intro c hcc _
    cases op with
    | head _ => exact (Option.some_ne_none c (hcc.symm.trans hc)).elim
    | data _ => exact (Option.some_ne_none c (hcc.symm.trans hc)).elim
    | trailers t =>
      exact ⟨haw.1,hdone haw.1⟩
    | finish =>
      rcases haw with hb | ⟨he,-⟩
      · rw [hc] at hb; cases hb
      · exact ⟨he,hdone he⟩

theorem SenderInv.sent (h : SenderInv b s) {op : SendOp} (ha : s.await = .send op .flushed) :
    SenderInv b (s.onSent L op) ∧ (EndInv b s → EndInv b (s.onSent L op)) := by
  have haw := h.await
  unfold Sender.AwaitInv at haw
  rw [ha] at haw
  have hleave (hcl : s.wire.closing ≠ none) :
      SenderInv b (s.leave L) ∧ (EndInv b s → EndInv b (s.leave L)) :=
    ⟨h.toSenderFrame.leave,fun hE => hE.leave fun hn => (hcl hn).elim⟩
  have hback (loop : σ) (haw : s.wire.closing = none ∧ s.body.ended = false)
      (hu : (Await.send op .flushed).unsent = []) :
      SenderInv b { s with await := .body, loop } ∧
        (EndInv b s → EndInv b { s with await := .body, loop }) := by
    refine ⟨⟨⟨h.stock,h.ending,h.drained,h.front,h.trailed⟩,fun hc => ?_,haw⟩,fun hE => hE⟩
    exact (List.append_nil _).trans (h.written hc (by rw [ha]; exact hu))
  cases op with
  | head _ => exact hback s.loop haw rfl
  | data d => exact hback (L.dataSent s.loop d) haw rfl
  | trailers _ =>
    refine hleave ?_
    rw [haw.2.2]
    exact nofun
  | finish =>
    refine hleave ?_
    rcases haw with hb | ⟨-,-,hf⟩
    · rw [hb]; exact nofun
    · rw [hf]; exact nofun

/-- A failed operation leaves a broken wire behind, unless it was closed before. -/
theorem SenderInv.failed (h : SenderInv b s) {op : SendOp} {stage : Stage} (message : String)
    (ha : s.await = .send op stage) (hst : stage ≠ .flushed) :
    SenderInv b ({ s with wire := s.wire.break }.onFailed L message op) ∧
      (EndInv b s → EndInv b ({ s with wire := s.wire.break }.onFailed L message op)) := by
  have haw := h.await
  unfold Sender.AwaitInv at haw
  rw [ha] at haw
  have hcl : s.wire.closing = none ∨ s.wire.closing = some .broken := by
    cases op with
    | head _ => exact .inl haw.1
    | data _ => exact .inl haw.1
    | trailers _ => exact .inl (haw.2.2.trans (if_neg hst))
    | finish =>
      rcases haw with hb | ⟨-,-,hf⟩
      · exact .inr hb
      · exact .inl (hf.trans (if_neg hst))
  have hbroken : s.wire.break.closing = some .broken := by
    rcases hcl with hn | hb
    · simp only [Wire.break,hn,Option.getD_none]
    · simp only [Wire.break,hb,Option.getD_some]
  have hframe (loop : σ) : SenderFrame b { s with wire := s.wire.break, loop } :=
    ⟨h.stock,h.ending,h.drained,h.front,fun t ht => by rw [hbroken] at ht; cases ht⟩
  have hend (loop : σ) : EndInv b { s with wire := s.wire.break, loop } :=
    fun c hc hne => (hne (Option.some.inj (hc.symm.trans hbroken))).elim
  have hnone {p : Prop} : s.wire.break.closing = none → p := by
    intro hn
    rw [hbroken] at hn
    cases hn
  cases op with
  | head _ => exact ⟨(hframe s.loop).leave,fun _ => (hend s.loop).leave fun hn => hnone hn⟩
  | data _ =>
    exact ⟨(hframe s.loop).exit _ (.inl hbroken),fun _ => (hend s.loop).exit _ fun hn => hnone hn⟩
  | trailers _ => exact ⟨(hframe _).leave,fun _ => (hend _).leave fun hn => hnone hn⟩
  | finish => exact ⟨(hframe _).leave,fun _ => (hend _).leave fun hn => hnone hn⟩

theorem SenderInv.abort (h : SenderInv b s)
    (hord : s.await.midFrame = true ∨ s.body.ended = true) (hE : EndInv b s) : EndInv b (s.leave L) := by
  refine hE.leave fun hc hm => ?_
  rcases hord with hmid | he
  · rw [hm] at hmid; cases hmid
  · refine ⟨he,h.complete hc ?_ he⟩
    have haw := h.await
    unfold Sender.AwaitInv at haw
    cases ha : s.await with
    | body => rfl
    | left => rfl
    | send op stage =>
      rw [ha] at haw
      cases op with
      | data _ => rw [haw.2] at he; cases he
      | head _ => rfl
      | trailers _ => rfl
      | finish => rfl

theorem step_poll (hst : s.step L .poll = some t) :
    s.await = .body ∧ t = { s with body := s.body.next.2 }.onFrame L s.body.next.1 := by
  simp only [Sender.step] at hst
  split at hst
  · rename_i ha; exact ⟨ha,(Option.some.inj hst).symm⟩
  · cases hst

theorem abort_cases (L : SendLoop σ) (s : Sender σ) :
    (s.await = .left ∧ s.abort L = s) ∨ s.abort L = s.leave L := by
  unfold Sender.abort
  split
  · rename_i ha; exact .inl ⟨ha,rfl⟩
  · exact .inr rfl

theorem abort_await (L : SendLoop σ) (s : Sender σ) : (s.abort L).await = .left := by
  rcases abort_cases L s with ⟨ha,he⟩ | he
  · rw [he]; exact ha
  · rw [he]; rfl

theorem step_abort (hst : s.step L .abort = some t) : (s.await = .left ∧ t = s) ∨ t = s.leave L := by
  cases hst
  exact abort_cases L s

theorem step_cases {l : SendLabel} (hst : s.step L l = some t) :
    (l = .poll ∧ s.await = .body ∧ t = { s with body := s.body.next.2 }.onFrame L s.body.next.1) ∨
    (l = .begin ∧ ∃ op, op ≠ .finish ∧ s.await = .send op .queued ∧
      t = { s with await := .send op (.underway op.payload) }) ∨
    (∃ n d rest, l = .write n ∧ s.await = .send (.data d) (.underway rest) ∧
      t = { s with
        await := .send (.data d) (.underway (rest.drop n))
        wire := { s.wire with tape := s.wire.tape.append ((rest.take n).map some) } }) ∨
    (l = .flush ∧ s.wire.closing = none ∧ ∃ op stage, s.await = .send op stage ∧
      (Await.send op stage).unsent = op.mark ∧
      t = { s with await := .send op .flushed, wire := s.wire.flush op }) ∨
    (l = .sent ∧ ∃ op, s.await = .send op .flushed ∧ t = s.onSent L op) ∨
    (∃ m op stage, l = .failed m ∧ s.await = .send op stage ∧ stage ≠ .flushed ∧
      t = { s with wire := s.wire.break }.onFailed L m op) ∨
    (l = .abort ∧ ((s.await = .left ∧ t = s) ∨ t = s.leave L)) := by
  cases l with
  | poll => exact .inl ⟨rfl,step_poll hst⟩
  | begin =>
    simp only [Sender.step] at hst
    split at hst
    · cases hst
    · rename_i op hop ha
      exact .inr (.inl ⟨rfl,op,hop,ha,(Option.some.inj hst).symm⟩)
    · cases hst
  | write n =>
    simp only [Sender.step] at hst
    split at hst
    · rename_i d rest ha
      exact .inr (.inr (.inl ⟨n,d,rest,rfl,ha,(Option.some.inj hst).symm⟩))
    · cases hst
  | flush =>
    simp only [Sender.step] at hst
    split at hst
    · rename_i ha hc
      exact .inr (.inr (.inr (.inl ⟨rfl,hc,_,_,ha,rfl,(Option.some.inj hst).symm⟩)))
    · rename_i op ha hc
      have hu : (Await.send op (.underway [])).unsent = op.mark := by cases op <;> rfl
      exact .inr (.inr (.inr (.inl ⟨rfl,hc,_,_,ha,hu,(Option.some.inj hst).symm⟩)))
    · cases hst
  | sent =>
    simp only [Sender.step] at hst
    split at hst
    · rename_i op ha
      exact .inr (.inr (.inr (.inr (.inl ⟨rfl,op,ha,(Option.some.inj hst).symm⟩))))
    · cases hst
  | failed m =>
    simp only [Sender.step] at hst
    split at hst
    · cases hst
    · rename_i op stage hne ha
      exact .inr (.inr (.inr (.inr (.inr (.inl ⟨m,op,stage,rfl,ha,hne,(Option.some.inj hst).symm⟩)))))
    · cases hst
  | abort => exact .inr (.inr (.inr (.inr (.inr (.inr ⟨rfl,step_abort hst⟩)))))

/-- One step of a task keeps its invariant, and an orderly one keeps the promise
made by the closing of the wire. -/
theorem step_senderInv (h : SenderInv b s) {l : SendLabel} (hst : s.step L l = some t) :
    SenderInv b t ∧ (OrderlyAbort s l → EndInv b s → EndInv b t) := by
  rcases step_cases hst with ⟨rfl,ha,rfl⟩ | ⟨rfl,op,hop,ha,rfl⟩ | ⟨n,d,rest,rfl,ha,rfl⟩ |
    ⟨rfl,hc,op,stage,ha,hu,rfl⟩ | ⟨rfl,op,ha,rfl⟩ | ⟨m,op,stage,rfl,ha,hne,rfl⟩ | ⟨rfl,ht⟩
  · exact ⟨(h.poll ha).1,fun _ => (h.poll ha).2⟩
  · have hm : [] ++ (Await.send op (.underway op.payload)).unsent = (Await.send op .queued).unsent := by
      cases op <;> rfl
    have hadv := h.advance ha hm hop nofun nofun
    have htape : s.wire.tape.append [] = s.wire.tape := by
      simp only [Tape.append,List.append_nil]
    rw [htape] at hadv
    exact ⟨hadv.1,fun _ => hadv.2⟩
  · have hm : (rest.take n).map some ++ (Await.send (.data d) (.underway (rest.drop n))).unsent =
        (Await.send (.data d) (.underway rest)).unsent := by
      simp only [Await.unsent]
      rw [← List.append_assoc,← List.map_append,List.take_append_drop]
    have hadv := h.advance ha hm nofun nofun nofun
    exact ⟨hadv.1,fun _ => hadv.2⟩
  · exact ⟨(h.flush ha hu hc).1,fun _ _ => (h.flush ha hu hc).2⟩
  · exact ⟨(h.sent ha).1,fun _ => (h.sent ha).2⟩
  · have hf := h.failed (L := L) m ha hne
    exact ⟨hf.1,fun _ => hf.2⟩
  · rcases ht with ⟨-,rfl⟩ | rfl
    · exact ⟨h,fun _ hE => hE⟩
    · refine ⟨h.toSenderFrame.leave,fun hord hE => ?_⟩
      rcases hord rfl with hc | hm
      · exact hE.leave fun hn => (hc hn).elim
      · exact h.abort hm hE

theorem leave_wire {c : Closing} (hc : s.wire.closing = some c) : (s.leave L).wire = s.wire := by
  simp only [Sender.leave,Wire.dropSend,hc,Option.getD_some]
  rw [← hc]

theorem exit_wire {c : Closing} (hc : s.wire.closing = some c) (r : Exit × σ) :
    (s.exit L r).wire = s.wire := by
  obtain ⟨e,loop⟩ := r
  cases e with
  | finish => rfl
  | leave => exact leave_wire (s := { s with loop }) hc

theorem exit_tape (s : Sender σ) (r : Exit × σ) : (s.exit L r).wire.tape = s.wire.tape := by
  obtain ⟨e,loop⟩ := r
  cases e <;> rfl

/-- The task never touches what the transport has read off the tape. -/
theorem step_pulled {l : SendLabel} (hst : s.step L l = some t) :
    t.wire.tape.pulled = s.wire.tape.pulled := by
  rcases step_cases hst with ⟨rfl,-,rfl⟩ | ⟨rfl,op,-,-,rfl⟩ | ⟨n,d,rest,rfl,-,rfl⟩ |
    ⟨rfl,-,op,stage,-,-,rfl⟩ | ⟨rfl,op,-,rfl⟩ | ⟨m,op,stage,rfl,-,-,rfl⟩ | ⟨rfl,⟨-,rfl⟩ | rfl⟩
  · unfold Sender.onFrame
    split
    · rfl
    · rfl
    · rw [exit_tape]
    · rw [exit_tape]
  · rfl
  · exact Tape.append_pulled ..
  · cases op with
    | data d => exact Tape.append_pulled ..
    | _ => rfl
  · cases op <;> rfl
  · cases op with
    | data _ => rw [Sender.onFailed,exit_tape]; rfl
    | head _ => rfl
    | trailers _ => rfl
    | finish => rfl
  · rfl
  · rfl

theorem SenderInv.pull (h : SenderInv b s) (n : ℕ) :
    SenderInv b { s with wire := { s.wire with tape := s.wire.tape.pull n } } :=
  ⟨⟨h.stock,h.ending,h.drained,h.front,h.trailed⟩,h.whole,h.await⟩

/-- Nothing is written on a closed wire. -/
theorem step_closed (h : SenderInv b s) {c : Closing} (hc : s.wire.closing = some c) {l : SendLabel}
    (hst : s.step L l = some t) : t.wire = s.wire := by
  have haw := h.await
  unfold Sender.AwaitInv at haw
  have hnot {p : Prop} (hn : s.wire.closing = none) : p :=
    (Option.some_ne_none c (hc.symm.trans hn)).elim
  rcases step_cases hst with ⟨rfl,ha,rfl⟩ | ⟨rfl,op,-,ha,rfl⟩ | ⟨n,d,rest,rfl,ha,rfl⟩ |
    ⟨rfl,hn,-⟩ | ⟨rfl,op,ha,rfl⟩ | ⟨m,op,stage,rfl,ha,-,rfl⟩ | ⟨rfl,⟨-,rfl⟩ | rfl⟩
  · rw [ha] at haw
    exact hnot haw.1
  · rfl
  · rw [ha] at haw
    exact hnot haw.1
  · exact hnot hn
  · cases op with
    | head _ => rfl
    | data _ => rfl
    | trailers _ => exact leave_wire hc
    | finish => exact leave_wire hc
  · have hb : s.wire.break = s.wire := by
      simp only [Wire.break,hc,Option.getD_some]
      rw [← hc]
    rw [hb]
    cases op with
    | head _ => exact leave_wire hc
    | data _ => exact exit_wire hc _
    | trailers _ => exact leave_wire (s := { s with loop := L.trailersFailed s.loop m }) hc
    | finish => exact leave_wire (s := { s with loop := L.finishFailed s.loop m }) hc
  · rfl
  · exact leave_wire hc

theorem step_finInv (h : SenderInv b s) (hF : FinInv b s) {l : SendLabel} (hl : l ≠ .abort)
    (hst : s.step L l = some t) : FinInv b t := by
  have haw := h.await
  unfold Sender.AwaitInv at haw
  rcases hcl : s.wire.closing with _ | c
  · have hopen {u : Sender σ} (hu : u.wire.closing = none) : FinInv b u := fun hf => by
      rw [hu] at hf; cases hf
    rcases step_cases hst with ⟨rfl,ha,rfl⟩ | ⟨rfl,op,-,ha,rfl⟩ | ⟨n,d,rest,rfl,ha,rfl⟩ |
      ⟨rfl,hn,op,stage,ha,-,rfl⟩ | ⟨rfl,op,ha,rfl⟩ | ⟨m,op,stage,rfl,ha,hne,rfl⟩ | ⟨rfl,-⟩
    · rw [ha] at haw
      cases hf : s.body.frames with
      | cons d rest => rw [Body.next_of_cons hf]; exact hopen hcl
      | nil =>
        rw [Body.next_of_nil hf haw.2]
        cases hb : s.body.ending with
        | clean => exact fun _ t ht => by rw [← h.ending,hb] at ht; cases ht
        | error e => exact fun _ t ht => by rw [← h.ending,hb] at ht; cases ht
        | trailers t => exact hopen hcl
    · exact hopen hcl
    · exact hopen hcl
    · cases op with
      | head _ => exact hopen hcl
      | data _ => exact hopen hcl
      | trailers _ => exact nofun
      | finish =>
        rw [ha] at haw
        rcases haw with hb | ⟨-,ht,-⟩
        · rw [hcl] at hb; cases hb
        · exact fun _ => ht
    · rw [ha] at haw
      cases op with
      | head _ => exact hopen hcl
      | data _ => exact hopen hcl
      | trailers _ => rw [hcl] at haw; cases haw.2.2
      | finish =>
        rcases haw with hb | ⟨-,-,hf⟩
        · rw [hcl] at hb; cases hb
        · rw [hcl] at hf; cases hf
    · have hb : s.wire.break.closing = some .broken := by
        simp only [Wire.break,hcl,Option.getD_none]
      have hbroken {u : Sender σ} (hu : u.wire = s.wire.break) : FinInv b u := fun hf => by
        rw [hu,hb] at hf; cases hf
      cases op with
      | head _ => exact hbroken (leave_wire hb)
      | data _ => exact hbroken (exit_wire hb _)
      | trailers _ => exact hbroken (leave_wire (s := { s with wire := s.wire.break, loop := _ }) hb)
      | finish => exact hbroken (leave_wire (s := { s with wire := s.wire.break, loop := _ }) hb)
    · exact (hl rfl).elim
  · intro hf
    rw [step_closed h hcl hst] at hf
    exact hF hf

/-- A body ends when it is polled, and stays ended. -/
theorem step_ended {l : SendLabel} (hst : s.step L l = some t) (he : t.body.ended = true) :
    s.body.ended = true ∨ (l = .poll ∧ s.await = .body ∧ s.body.next.1 = s.body.ending.result) := by
  have hexit (u : Sender σ) (r : Exit × σ) : (u.exit L r).body = u.body := by
    obtain ⟨e,loop⟩ := r; cases e <;> rfl
  rcases step_cases hst with ⟨rfl,ha,rfl⟩ | ⟨rfl,op,-,-,rfl⟩ | ⟨n,d,rest,rfl,-,rfl⟩ |
    ⟨rfl,-,op,stage,-,-,rfl⟩ | ⟨rfl,op,-,rfl⟩ | ⟨m,op,stage,rfl,-,-,rfl⟩ | ⟨rfl,⟨-,rfl⟩ | rfl⟩
  · cases hd : s.body.ended with
    | true => exact .inl rfl
    | false =>
      cases hf : s.body.frames with
      | nil => exact .inr ⟨rfl,ha,by rw [Body.next_of_nil hf hd]⟩
      | cons d rest =>
        rw [Body.next_of_cons hf] at he
        exact .inl (hd.symm.trans he)
  · exact .inl he
  · exact .inl he
  · exact .inl he
  · cases op <;> exact .inl he
  · cases op with
    | data _ => rw [Sender.onFailed,hexit] at he; exact .inl he
    | head _ => exact .inl he
    | trailers _ => exact .inl he
    | finish => exact .inl he
  · exact .inl he
  · exact .inl he

/-- Whatever a task does, a wire closed in good order carries a body that has ended. -/
theorem step_endInv_of_ended (h : SenderInv b s) (hE : s.body.ended = true → EndInv b s) {l : SendLabel}
    (hst : s.step L l = some t) (he : t.body.ended = true) : EndInv b t := by
  rcases step_ended hst he with hs | ⟨rfl,ha,-⟩
  · exact (step_senderInv h hst).2 (fun _ => .inr (.inr hs)) (hE hs)
  · refine (step_senderInv h hst).2 nofun fun c hc => ?_
    have haw := h.await
    unfold Sender.AwaitInv at haw
    rw [ha,hc] at haw
    cases haw.1

end GrpcQuic
