import GrpcQuic.Core.SendLoopInv
import GrpcQuic.Transition.Runs
import Mathlib.Data.List.TakeWhile

/-! # One direction of a stream

A sending loop, the wire, and a body that reads the other end. The transport
delivers the bytes in order, cut into chunks of any size, and then what closes
the wire; it may also lose the rest of the stream.
-/
namespace GrpcQuic
open Transition

/-- The receive half: the chunks that have arrived, an empty one for each DATA frame
without data, and what came after them. -/
structure RecvHalf where
  chunks : List Bytes
  ending : Option (Except String (Option HeaderMap))

def RecvHalf.new : RecvHalf := ⟨[],none⟩

-- h3 takes a DATA frame without data for the end of the data.
def RecvHalf.pollRecvData (half : RecvHalf) : Poll (Except String (Option Bytes)) × RecvHalf :=
  match half.chunks with
  | [] :: rest => (.ready (.ok none),{ half with chunks := rest })
  | chunk :: rest => (.ready (.ok (some chunk)),{ half with chunks := rest })
  | [] =>
    match half.ending with
    | none => (.pending,half)
    | some (.ok _) => (.ready (.ok none),half)
    | some (.error e) => (.ready (.error e),half)

/-- What h3 answers to a DATA frame where only trailers may come. -/
def frameUnexpected : String := "H3_FRAME_UNEXPECTED"

def RecvHalf.pollRecvTrailers (half : RecvHalf) :
    Poll (Except String (Option HeaderMap)) × RecvHalf :=
  match half.chunks, half.ending with
  | _ :: _, _ => (.ready (.error frameUnexpected),half)
  | [], none => (.pending,half)
  | [], some (.ok (some trailers)) =>
    (.ready (.ok (some trailers)),{ half with ending := some (.ok none) })
  | [], some (.ok none) => (.ready (.ok none),half)
  | [], some (.error e) => (.ready (.error e),half)

instance : RecvStream RecvHalf := ⟨RecvHalf.pollRecvData,RecvHalf.pollRecvTrailers⟩

def RecvHalf.Failed (half : RecvHalf) : Prop := half.chunks = [] ∧ ∃ m, half.ending = some (.error m)

/-- The outcomes of one poll of a body that still reads data. Where the data is at its
end, by an empty frame or by that of the stream, the poll goes on to the trailers. -/
theorem RecvHalf.pollFrame_undone (half : RecvHalf) :
    (∃ d rest, half.chunks = d :: rest ∧ d ≠ [] ∧ ServerRecvBody.pollFrame ⟨half,false,false⟩ =
      (.ready (some (.ok (.data d))),⟨⟨rest,half.ending⟩,false,false⟩)) ∨
    (half.chunks = [] ∧ half.ending = none ∧
      ServerRecvBody.pollFrame ⟨half,false,false⟩ = (.pending,⟨half,false,false⟩)) ∨
    (∃ m, half.Failed ∧ ServerRecvBody.pollFrame ⟨half,false,false⟩ =
      (.ready (some (.error (.h3Stream m))),⟨half,false,false⟩)) ∨
    (∃ gone rest, half.chunks = gone ++ rest ∧
      (gone = [[]] ∨ (gone = [] ∧ rest = [] ∧ ∃ o, half.ending = some (.ok o))) ∧
      ServerRecvBody.pollFrame ⟨half,false,false⟩ =
        ServerRecvBody.pollFrame ⟨⟨rest,half.ending⟩,true,false⟩) := by
  rcases half with ⟨_ | ⟨_ | ⟨b,d⟩,rest⟩,ending⟩
  · rcases ending with _ | m | o
    · exact .inr (.inl ⟨rfl,rfl,rfl⟩)
    · exact .inr (.inr (.inl ⟨m,⟨rfl,m,rfl⟩,rfl⟩))
    · exact .inr (.inr (.inr ⟨[],[],rfl,.inr ⟨rfl,rfl,o,rfl⟩,rfl⟩))
  · exact .inr (.inr (.inr ⟨[[]],rest,rfl,.inl rfl,rfl⟩))
  · exact .inl ⟨b :: d,rest,rfl,List.cons_ne_nil b d,rfl⟩

theorem RecvHalf.pollFrame_drained (half : RecvHalf) :
    (half.chunks = [] ∧ half.ending = none ∧
      ServerRecvBody.pollFrame ⟨half,true,false⟩ = (.pending,⟨half,true,false⟩)) ∨
    (∃ m, (half.chunks ≠ [] ∨ ∃ m, half.ending = some (.error m)) ∧
      ServerRecvBody.pollFrame ⟨half,true,false⟩ =
        (.ready (some (.error (.h3Stream m))),⟨half,true,true⟩)) ∨
    (∃ o, half.chunks = [] ∧ half.ending = some (.ok o) ∧ ServerRecvBody.pollFrame ⟨half,true,false⟩ =
      (.ready (o.map fun t => .ok (.trailers t)),⟨⟨[],some (.ok none)⟩,true,true⟩)) := by
  rcases half with ⟨_ | ⟨d,rest⟩,ending⟩
  · rcases ending with _ | m | o
    · exact .inl ⟨rfl,rfl,rfl⟩
    · exact .inr (.inl ⟨m,.inr ⟨m,rfl⟩,rfl⟩)
    · refine .inr (.inr ⟨o,rfl,rfl,?_⟩)
      cases o <;> rfl
  · exact .inr (.inl ⟨frameUnexpected,.inl (List.cons_ne_nil d rest),rfl⟩)

/-- How h3 reports the closing of the wire. -/
def Closing.arrival (message : String) : Closing → Except String (Option HeaderMap)
  | .fin => .ok none
  | .trailers t => .ok (some t)
  | .broken => .error message

structure Transfer (σ : Type*) where
  sender : Sender σ
  body : ServerRecvBody RecvHalf
  yielded : List FrameResult

inductive TransferLabel where
  | send (l : SendLabel)
  | deliver (n : ℕ)
  | deliverEnd (message : String)
  | lose (message : String)
  | recv

/-- What the transport hands over next: up to `n` bytes of data as one chunk, or an
empty DATA frame. -/
def Wire.piece (wire : Wire) (n : ℕ) : Option Bytes :=
  match wire.tape.next 1 with
  | [] => none
  | none :: _ => some []
  | some _ :: _ =>
    match ((wire.tape.next n).takeWhile Option.isSome).reduceOption with
    | [] => none
    | b :: chunk => some (b :: chunk)

def Wire.deliver (wire : Wire) (half : RecvHalf) (n : ℕ) : Option (Wire × RecvHalf) :=
  match half.ending with
  | none => (wire.piece n).map fun chunk =>
      ({ wire with tape := wire.tape.pull (frameCells chunk).length },
        { half with chunks := half.chunks ++ [chunk] })
  | some _ => none

def Wire.deliverEnd (wire : Wire) (half : RecvHalf) (message : String) : Option RecvHalf :=
  match half.ending, wire.closing with
  | none, some c =>
    if wire.tape.Exhausted then some { half with ending := some (c.arrival message) } else none
  | _, _ => none

def RecvHalf.lose (half : RecvHalf) (message : String) : Option RecvHalf :=
  match half.ending with
  | none => some { half with ending := some (.error message) }
  | some _ => none

variable {σ : Type*}

def Transfer.init (sender : Sender σ) : Transfer σ := ⟨sender,.new .new,[]⟩

def Transfer.setHalf (s : Transfer σ) (half : RecvHalf) : Transfer σ :=
  { s with body := { s.body with stream := half } }

def Transfer.step (L : SendLoop σ) (s : Transfer σ) : TransferLabel → Option (Transfer σ)
  | .send l => (s.sender.step L l).map fun sender => { s with sender }
  | .deliver n =>
    (s.sender.wire.deliver s.body.stream n).map fun (wire,half) =>
      { s.setHalf half with sender := { s.sender with wire } }
  | .deliverEnd message => (s.sender.wire.deliverEnd s.body.stream message).map s.setHalf
  | .lose message => (s.body.stream.lose message).map s.setHalf
  | .recv =>
    match s.body.pollFrame with
    | (.ready result,body) => some { s with body, yielded := s.yielded ++ [result] }
    | (.pending,body) => some { s with body }

def FrameResult.data : FrameResult → Bytes
  | some (.ok (.data data)) => data
  | _ => []

def yieldedData (results : List FrameResult) : Bytes := results.flatMap FrameResult.data

@[simp] theorem yieldedData_append (rs qs : List FrameResult) :
    yieldedData (rs ++ qs) = yieldedData rs ++ yieldedData qs := List.flatMap_append

@[simp] theorem yieldedData_singleton (r : FrameResult) : yieldedData [r] = FrameResult.data r :=
  List.flatMap_singleton ..

def Closing.results : Closing → List FrameResult
  | .fin => [none]
  | .trailers t => [some (.ok (.trailers t))]
  | .broken => []

def dataFrames (chunks : List Bytes) : List FrameResult := chunks.map fun d => some (.ok (.data d))

@[simp] theorem yieldedData_dataFrames (chunks : List Bytes) :
    yieldedData (dataFrames chunks) = chunks.flatten := by
  induction chunks with
  | nil => rfl
  | cons d rest ih =>
    rw [List.flatten_cons,← ih]
    rfl

theorem yieldedData_replicate_none (k : ℕ) : yieldedData (List.replicate k none) = [] := by
  induction k with
  | zero => rfl
  | succ k ih => rw [List.replicate_succ]; exact ih

/-- How far a reading is. An error among the data is one of a stream that has failed. Past
the data there is at most one, where a frame stood in the way or the stream has failed. -/
structure Reading (s : Transfer σ) : Prop where
  undone : s.body.dataDone = false → s.body.trailersDone = false ∧
    ∀ r ∈ s.yielded, (∃ d, r = some (.ok (.data d))) ∨ ((∃ e, r = some (.error e)) ∧ s.body.stream.Failed)
  data : s.body.dataDone = true → s.body.trailersDone = false → ∃ ds, s.yielded = dataFrames ds
  done : s.body.dataDone = true → s.body.trailersDone = true → ∃ ds k,
    (∃ c, s.sender.wire.closing = some c ∧ c ≠ .broken ∧ s.body.stream.chunks = [] ∧
      (∃ o, s.body.stream.ending = some (.ok o)) ∧
      s.yielded = dataFrames ds ++ c.results ++ List.replicate k none) ∨
    ∃ e, (s.body.stream.chunks ≠ [] ∨ ∃ m, s.body.stream.ending = some (.error m)) ∧
      s.yielded = dataFrames ds ++ some (.error e) :: List.replicate k none

/-- What the reader has taken off its half: data, until an empty frame or the end of the
stream ends it. -/
structure Flow (s : Transfer σ) (past : List Bytes) : Prop where
  pulled : s.sender.wire.tape.pulled = (past ++ s.body.stream.chunks).flatMap frameCells
  data : yieldedData s.yielded = past.flatten
  front : [] ∉ past.dropLast
  undone : s.body.dataDone = false → [] ∉ past
  done : s.body.dataDone = true →
    [] ∈ past ∨ (s.body.stream.chunks = [] ∧ ∃ o, s.body.stream.ending = some (.ok o))

structure TransferInv (b : Body) (s : Transfer σ) : Prop where
  sender : SenderInv b s.sender
  flow : ∃ past, Flow s past
  arrived : ∀ o, s.body.stream.ending = some (.ok o) → s.sender.wire.tape.Exhausted ∧
    ∃ c, s.sender.wire.closing = some c ∧ c ≠ .broken ∧
      (s.body.trailersDone = false → c.arrival "" = .ok o)
  reading : Reading s

theorem map_some_reduceOption {α : Type*} {xs : List (Option α)} (h : ∀ x ∈ xs, x.isSome) :
    xs.reduceOption.map some = xs := by
  induction xs with
  | nil => rfl
  | cons x xs ih =>
    obtain ⟨a,rfl⟩ := Option.isSome_iff_exists.mp (h x List.mem_cons_self)
    rw [List.reduceOption_cons_of_some,List.map_cons,ih fun y hy => h y (List.mem_cons_of_mem _ hy)]

theorem piece_next {wire : Wire} {n : ℕ} {chunk : Bytes} (h : wire.piece n = some chunk) :
    wire.tape.next (frameCells chunk).length = frameCells chunk := by
  unfold Wire.piece at h
  split at h
  · cases h
  · rename_i rest hnext
    cases h
    have hlen : (wire.tape.next 1).length ≤ 1 := List.length_take_le ..
    rw [hnext,List.length_cons] at hlen
    rw [List.eq_nil_of_length_eq_zero (Nat.le_zero.mp (Nat.le_of_succ_le_succ hlen))] at hnext
    exact hnext
  · split at h
    · cases h
    · rename_i b rest hred
      cases h
      have hcells : (wire.tape.next n).takeWhile Option.isSome = frameCells (b :: rest) := by
        have hsome : ∀ x ∈ (wire.tape.next n).takeWhile Option.isSome, x.isSome := fun x hx =>
          List.mem_takeWhile_imp hx
        rw [← map_some_reduceOption hsome,hred]
        exact (List.append_nil _).symm
      refine Tape.next_of_prefix ?_
      rw [← hcells]
      exact (List.takeWhile_prefix _).trans (List.take_prefix ..)

theorem deliver_cases {wire wire' : Wire} {half half' : RecvHalf} {n : ℕ}
    (h : wire.deliver half n = some (wire',half')) : half.ending = none ∧ ∃ chunk,
      wire.piece n = some chunk ∧
      wire' = { wire with tape := wire.tape.pull (frameCells chunk).length } ∧
      half' = { half with chunks := half.chunks ++ [chunk] } := by
  unfold Wire.deliver at h
  split at h
  · rename_i he
    obtain ⟨chunk,hp,hw⟩ := Option.map_eq_some_iff.mp h
    cases hw
    exact ⟨he,chunk,hp,rfl,rfl⟩
  · cases h

variable {L : SendLoop σ} {b : Body} {s t : Transfer σ}

/-- A reading only grows, and by what a poll yields. -/
theorem Transfer.step_yielded {l : TransferLabel} (hst : s.step L l = some t) :
    t.yielded = s.yielded ∨ (l = .recv ∧ ∃ r, t.yielded = s.yielded ++ [r]) := by
  cases l with
  | send l =>
    obtain ⟨sender,-,rfl⟩ := Option.map_eq_some_iff.mp hst
    exact .inl rfl
  | deliver n =>
    obtain ⟨wh,-,rfl⟩ := Option.map_eq_some_iff.mp hst
    exact .inl rfl
  | deliverEnd m =>
    obtain ⟨half,-,rfl⟩ := Option.map_eq_some_iff.mp hst
    exact .inl rfl
  | lose m =>
    obtain ⟨half,-,rfl⟩ := Option.map_eq_some_iff.mp hst
    exact .inl rfl
  | recv =>
    simp only [Transfer.step] at hst
    split at hst
    · cases hst
      exact .inr ⟨rfl,_,rfl⟩
    · cases hst
      exact .inl rfl

/-- The task moves alone; every other step leaves it where it is, and at most
reads on its tape. -/
theorem Transfer.step_sender {l : TransferLabel} (hst : s.step L l = some t) :
    (∃ m sender, l = .send m ∧ s.sender.step L m = some sender ∧ t = { s with sender }) ∨
    ((∀ m, l ≠ .send m) ∧ (t.sender = s.sender ∨ ∃ n, t.sender =
      { s.sender with wire := { s.sender.wire with tape := s.sender.wire.tape.pull n } })) := by
  cases l with
  | send m =>
    obtain ⟨sender,hs,rfl⟩ := Option.map_eq_some_iff.mp hst
    exact .inl ⟨m,sender,rfl,hs,rfl⟩
  | deliver n =>
    obtain ⟨⟨wire,half⟩,hd,rfl⟩ := Option.map_eq_some_iff.mp hst
    obtain ⟨-,chunk,-,rfl,rfl⟩ := deliver_cases hd
    exact .inr ⟨by rintro _ ⟨⟩,.inr ⟨(frameCells chunk).length,rfl⟩⟩
  | deliverEnd m =>
    obtain ⟨half,-,rfl⟩ := Option.map_eq_some_iff.mp hst
    exact .inr ⟨by rintro _ ⟨⟩,.inl rfl⟩
  | lose m =>
    obtain ⟨half,-,rfl⟩ := Option.map_eq_some_iff.mp hst
    exact .inr ⟨by rintro _ ⟨⟩,.inl rfl⟩
  | recv =>
    refine .inr ⟨by rintro _ ⟨⟩,.inl ?_⟩
    simp only [Transfer.step] at hst
    split at hst <;> cases hst <;> rfl

theorem TransferInv.init {sender : Sender σ} (h : SenderInv b sender)
    (ht : sender.wire.tape.pulled = []) : TransferInv b (Transfer.init sender) :=
  ⟨h,⟨[],ht,rfl,List.not_mem_nil,fun _ => List.not_mem_nil,nofun⟩,nofun,
    ⟨fun _ => ⟨rfl,nofun⟩,nofun,nofun⟩⟩

theorem TransferInv.send (h : TransferInv b s) {l : SendLabel} {sender : Sender σ}
    (hst : s.sender.step L l = some sender) : TransferInv b { s with sender } := by
  have hkeep {c : Closing} (hc : s.sender.wire.closing = some c) : sender.wire = s.sender.wire :=
    step_closed h.sender hc hst
  refine ⟨(step_senderInv h.sender hst).1,?_,?_,h.reading.undone,h.reading.data,fun hd htd => ?_⟩
  · obtain ⟨past,hp⟩ := h.flow
    exact ⟨past,(step_pulled hst).trans hp.pulled,hp.data,hp.front,hp.undone,hp.done⟩
  · intro o ho
    obtain ⟨hx,c,hc,hne,harr⟩ := h.arrived o ho
    rw [hkeep hc]
    exact ⟨hx,c,hc,hne,harr⟩
  · obtain ⟨ds,k,⟨c,hc,hclean⟩ | herr⟩ := h.reading.done hd htd
    · exact ⟨ds,k,.inl ⟨c,by rw [hkeep hc]; exact hc,hclean⟩⟩
    · exact ⟨ds,k,.inr herr⟩

theorem exists_dataFrames {rs : List FrameResult} (h : ∀ r ∈ rs, ∃ d, r = some (.ok (.data d))) :
    ∃ ds, rs = dataFrames ds := by
  induction rs with
  | nil => exact ⟨[],rfl⟩
  | cons r rs ih =>
    obtain ⟨d,rfl⟩ := h r List.mem_cons_self
    obtain ⟨ds,rfl⟩ := ih fun q hq => h q (List.mem_cons_of_mem _ hq)
    exact ⟨d :: ds,rfl⟩

/-- As long as the stream has not failed, nothing but data is read before its end. -/
theorem Reading.data_of_undone (h : Reading s) (hd : s.body.dataDone = false)
    (hf : ¬ s.body.stream.Failed) : ∀ r ∈ s.yielded, ∃ d, r = some (.ok (.data d)) := by
  intro r hr
  rcases (h.undone hd).2 r hr with hdat | ⟨-,hfail⟩
  · exact hdat
  · exact (hf hfail).elim

theorem TransferInv.arrive (h : TransferInv b s) {sender : Sender σ} {half : RecvHalf} (more : List Bytes)
    (he : s.body.stream.ending = none) (hs : SenderInv b sender)
    (hch : half.chunks = s.body.stream.chunks ++ more)
    (hp : sender.wire.tape.pulled = s.sender.wire.tape.pulled ++ more.flatMap frameCells)
    (harr : ∀ o, half.ending = some (.ok o) → sender.wire.tape.Exhausted ∧
      ∃ c, sender.wire.closing = some c ∧ c ≠ .broken ∧ c.arrival "" = .ok o) :
    TransferInv b { s.setHalf half with sender } := by
  have hopen {e : Except String (Option HeaderMap)} {p : Prop} (h : s.body.stream.ending = some e) : p :=
    nomatch he.symm.trans h
  refine ⟨hs,?_,fun o ho => ?_,fun hd => ?_,h.reading.data,fun hd htd => ?_⟩
  · obtain ⟨past,hflow⟩ := h.flow
    refine ⟨past,?_,hflow.data,hflow.front,hflow.undone,fun hd => ?_⟩
    · change sender.wire.tape.pulled = (past ++ half.chunks).flatMap frameCells
      rw [hp,hflow.pulled,hch,← List.flatMap_append,List.append_assoc]
    · rcases hflow.done hd with hpast | ⟨-,o,ho⟩
      · exact .inl hpast
      · exact hopen ho
  · obtain ⟨hx,c,hc,hne,ha⟩ := harr o ho
    exact ⟨hx,c,hc,hne,fun _ => ha⟩
  · refine ⟨(h.reading.undone hd).1,fun r hr => .inl ?_⟩
    exact h.reading.data_of_undone hd (fun ⟨_,m,hm⟩ => hopen hm) r hr
  · obtain ⟨ds,k,⟨c,-,-,-,⟨o,ho⟩,-⟩ | ⟨e,hcause,hy⟩⟩ := h.reading.done hd htd
    · exact hopen ho
    · refine ⟨ds,k,.inr ⟨e,?_,hy⟩⟩
      rcases hcause with hne | ⟨m,hm⟩
      · left
        change half.chunks ≠ []
        rw [hch]
        exact List.append_ne_nil_of_left_ne_nil hne more
      · exact hopen hm

/-- The data ends with what has been taken. -/
theorem TransferInv.drain (h : TransferInv b s) (hd : s.body.dataDone = false) {gone rest : List Bytes}
    (hch : s.body.stream.chunks = gone ++ rest)
    (hg : gone = [[]] ∨ (gone = [] ∧ rest = [] ∧ ∃ o, s.body.stream.ending = some (.ok o))) :
    TransferInv b { s with body := ⟨⟨rest,s.body.stream.ending⟩,true,false⟩ } := by
  have hf : ¬ s.body.stream.Failed := by
    rintro ⟨hnil,m,hm⟩
    rcases hg with rfl | ⟨-,-,o,ho⟩
    · rw [hch] at hnil
      cases hnil
    · cases hm.symm.trans ho
  obtain ⟨past,hflow⟩ := h.flow
  refine ⟨h.sender,⟨past ++ gone,?_,?_,?_,nofun,fun _ => ?_⟩,fun o ho => ?_,nofun,fun _ _ => ?_,nofun⟩
  · rw [List.append_assoc,← hch]
    exact hflow.pulled
  · have hnil : gone.flatten = [] := by rcases hg with rfl | ⟨rfl,-⟩ <;> rfl
    rw [List.flatten_append,hnil,List.append_nil]
    exact hflow.data
  · rcases hg with rfl | ⟨rfl,-⟩
    · rw [List.dropLast_concat]
      exact hflow.undone hd
    · rw [List.append_nil]
      exact hflow.front
  · rcases hg with rfl | ⟨-,hrest,ho⟩
    · exact .inl (List.mem_append_right _ (List.mem_singleton_self _))
    · exact .inr ⟨hrest,ho⟩
  · obtain ⟨hx,c,hc,hne,harr⟩ := h.arrived o ho
    exact ⟨hx,c,hc,hne,fun _ => harr (h.reading.undone hd).1⟩
  · exact exists_dataFrames (h.reading.data_of_undone hd hf)

theorem TransferInv.recvTrailers (h : TransferInv b s) (hd : s.body.dataDone = true)
    (htd : s.body.trailersDone = false) (hst : s.step L .recv = some t) : TransferInv b t := by
  obtain ⟨ds,hds⟩ := h.reading.data hd htd
  obtain ⟨past,hflow⟩ := h.flow
  rcases s with ⟨sender,⟨half,dd,td⟩,ys⟩
  cases hd
  cases htd
  cases hds
  simp only [Transfer.step] at hst
  rcases half.pollFrame_drained with ⟨-,-,hp⟩ | ⟨m,hcause,hp⟩ | ⟨o,hch,he,hp⟩
  · rw [hp] at hst
    cases hst
    exact h
  · rw [hp] at hst
    cases hst
    refine ⟨h.sender,⟨past,hflow.pulled,?_,hflow.front,nofun,hflow.done⟩,fun o ho => ?_,nofun,nofun,fun _ _ => ?_⟩
    · rw [yieldedData_append]
      exact (List.append_nil _).trans hflow.data
    · obtain ⟨hx,c,hc,hne,-⟩ := h.arrived o ho
      exact ⟨hx,c,hc,hne,nofun⟩
    · exact ⟨ds,0,.inr ⟨_,hcause,rfl⟩⟩
  · rw [hp] at hst
    cases hst
    obtain ⟨hx,c,hc,hne,harr⟩ := h.arrived o he
    have hres : c.results = [o.map fun t => .ok (.trailers t)] := by
      have ha := harr rfl
      cases c with
      | fin => cases ha; rfl
      | trailers t => cases ha; rfl
      | broken => exact (hne rfl).elim
    have hdata : yieldedData [o.map fun t => .ok (.trailers t)] = [] := by cases o <;> rfl
    refine ⟨h.sender,⟨past,?_,?_,hflow.front,nofun,fun _ => .inr ⟨rfl,none,rfl⟩⟩,
      fun _ _ => ⟨hx,c,hc,hne,nofun⟩,nofun,nofun,fun _ _ => ?_⟩
    · have hpulled := hflow.pulled
      rw [show (Transfer.mk sender ⟨half,true,false⟩ (dataFrames ds)).body.stream.chunks = [] from hch] at hpulled
      exact hpulled
    · rw [yieldedData_append,hdata,List.append_nil]
      exact hflow.data
    · exact ⟨ds,0,.inl ⟨c,hc,hne,rfl,⟨none,rfl⟩,by rw [hres,List.replicate_zero,List.append_nil]; rfl⟩⟩

theorem TransferInv.recvEnd (h : TransferInv b s) (hd : s.body.dataDone = true)
    (htd : s.body.trailersDone = true) (hst : s.step L .recv = some t) : TransferInv b t := by
  obtain ⟨ds,k,hdone⟩ := h.reading.done hd htd
  obtain ⟨past,hflow⟩ := h.flow
  rcases s with ⟨sender,⟨half,dd,td⟩,ys⟩
  cases hd
  cases htd
  cases hst
  refine ⟨h.sender,⟨past,hflow.pulled,?_,hflow.front,nofun,hflow.done⟩,h.arrived,nofun,nofun,
    fun _ _ => ⟨ds,k + 1,?_⟩⟩
  · rw [yieldedData_append]
    exact (List.append_nil _).trans hflow.data
  · rcases hdone with ⟨c,hc,hne,hch,ho,hy⟩ | ⟨e,hcause,hy⟩
    · refine .inl ⟨c,hc,hne,hch,ho,?_⟩
      rw [List.replicate_succ',← List.append_assoc,← hy]
    · refine .inr ⟨e,hcause,?_⟩
      rw [List.replicate_succ',← List.cons_append,← List.append_assoc,← hy]

theorem TransferInv.recv (h : TransferInv b s) (hst : s.step L .recv = some t) : TransferInv b t := by
  cases hd : s.body.dataDone with
  | true =>
    cases htd : s.body.trailersDone with
    | true => exact h.recvEnd hd htd hst
    | false => exact h.recvTrailers hd htd hst
  | false =>
    obtain ⟨htd,hy⟩ := h.reading.undone hd
    obtain ⟨past,hflow⟩ := h.flow
    have hbody : s.body = ⟨s.body.stream,false,false⟩ := by
      cases hs : s.body
      rw [hs] at hd htd
      cases hd
      cases htd
      rfl
    rcases s.body.stream.pollFrame_undone with ⟨d,rest,hch,hne,hp⟩ | ⟨-,-,hp⟩ | ⟨m,hfail,hp⟩ |
      ⟨gone,rest,hch,hg,hp⟩
    · rw [← hbody] at hp
      simp only [Transfer.step,hp] at hst
      cases hst
      have hnew : [] ∉ past ++ [d] := fun hmem => by
        rcases List.mem_append.mp hmem with hmem | hmem
        · exact hflow.undone hd hmem
        · exact hne (List.mem_singleton.mp hmem).symm
      refine ⟨h.sender,⟨past ++ [d],?_,?_,?_,fun _ => hnew,nofun⟩,?_,fun _ => ⟨rfl,fun r hr => .inl ?_⟩,nofun,nofun⟩
      · have hpulled := hflow.pulled
        rw [hch,List.append_cons] at hpulled
        exact hpulled
      · rw [yieldedData_append,yieldedData_singleton,hflow.data,List.flatten_append,List.flatten_singleton]
        rfl
      · exact fun hmem => hnew (List.dropLast_subset _ hmem)
      · intro o ho
        obtain ⟨hx,c,hc,hcl,harr⟩ := h.arrived o ho
        exact ⟨hx,c,hc,hcl,fun _ => harr htd⟩
      · rcases List.mem_append.mp hr with hr | hr
        · refine h.reading.data_of_undone hd (fun ⟨hnil,_⟩ => ?_) r hr
          rw [hch] at hnil
          cases hnil
        · exact ⟨d,List.mem_singleton.mp hr⟩
    · rw [← hbody] at hp
      simp only [Transfer.step,hp] at hst
      cases hst
      exact h
    · rw [← hbody] at hp
      simp only [Transfer.step,hp] at hst
      cases hst
      refine ⟨h.sender,⟨past,hflow.pulled,?_,hflow.front,hflow.undone,hflow.done⟩,h.arrived,fun _ => ⟨htd,fun r hr => ?_⟩,
        fun hd' => ?_,fun hd' => ?_⟩
      · rw [yieldedData_append]
        exact (List.append_nil _).trans hflow.data
      · rcases List.mem_append.mp hr with hr | hr
        · exact hy r hr
        · exact .inr ⟨⟨_,List.mem_singleton.mp hr⟩,hfail⟩
      · exact (Bool.false_ne_true (hd.symm.trans hd')).elim
      · exact (Bool.false_ne_true (hd.symm.trans hd')).elim
    · rw [← hbody] at hp
      refine (h.drain hd hch hg).recvTrailers (L := L) rfl rfl ?_
      simp only [Transfer.step,hp] at hst ⊢
      exact hst

theorem step_transferInv (h : TransferInv b s) {l : TransferLabel} (hst : s.step L l = some t) :
    TransferInv b t := by
  cases l with
  | send l =>
    obtain ⟨sender,hs,rfl⟩ := Option.map_eq_some_iff.mp hst
    exact h.send hs
  | deliver n =>
    obtain ⟨⟨wire,half⟩,hd,rfl⟩ := Option.map_eq_some_iff.mp hst
    obtain ⟨he,chunk,hp,rfl,rfl⟩ := deliver_cases hd
    refine h.arrive [chunk] he (h.sender.pull _) rfl ?_ fun o ho => nomatch he.symm.trans ho
    rw [Tape.pull_pulled,piece_next hp,List.flatMap_singleton]
  | deliverEnd m =>
    obtain ⟨half,hd,rfl⟩ := Option.map_eq_some_iff.mp hst
    unfold Wire.deliverEnd at hd
    split at hd
    · rename_i c he hc
      split at hd
      · rename_i hx
        cases hd
        refine h.arrive [] he h.sender (List.append_nil _).symm (List.append_nil _).symm
          fun o ho => ⟨hx,c,hc,?_,?_⟩
        · rintro rfl
          cases ho
        · cases c with
          | broken => cases ho
          | fin => exact Option.some.inj ho
          | trailers t => exact Option.some.inj ho
      · cases hd
    · cases hd
  | lose m =>
    obtain ⟨half,hd,rfl⟩ := Option.map_eq_some_iff.mp hst
    unfold RecvHalf.lose at hd
    split at hd
    · rename_i he
      cases hd
      exact h.arrive [] he h.sender (List.append_nil _).symm (List.append_nil _).symm nofun
    · cases hd
  | recv => exact h.recv hst

/-- What has been read off the tape is the beginning of the body. -/
theorem TransferInv.pulled_initial (h : TransferInv b s) :
    s.sender.wire.tape.pulled <+: s.sender.produced.flatMap frameCells :=
  s.sender.wire.tape.pulled_prefix.trans h.sender.front

/-- What has been read is a prefix of what the sending body has produced. -/
theorem TransferInv.read_of_produced (h : TransferInv b s) :
    yieldedData s.yielded <+: s.sender.produced.flatten := by
  obtain ⟨past,hflow⟩ := h.flow
  have hpast : past.flatMap frameCells <+: s.sender.produced.flatMap frameCells := by
    refine List.IsPrefix.trans ?_ h.pulled_initial
    rw [hflow.pulled,List.flatMap_append]
    exact List.prefix_append ..
  have hdata := hpast.filterMap id
  change (past.flatMap frameCells).reduceOption <+: (s.sender.produced.flatMap frameCells).reduceOption at hdata
  rw [reduceOption_cells,reduceOption_cells] at hdata
  rw [hflow.data]
  exact hdata

/-- A reader that has seen the end is past the trailers. -/
theorem TransferInv.done_of_none (h : TransferInv b s) (hn : none ∈ s.yielded) :
    s.body.dataDone = true ∧ s.body.trailersDone = true := by
  have hd : s.body.dataDone = true := by
    refine (Bool.not_eq_false _).mp fun hd => ?_
    rcases (h.reading.undone hd).2 none hn with ⟨d,hd'⟩ | ⟨⟨e,he⟩,-⟩
    · cases hd'
    · cases he
  refine ⟨hd,(Bool.not_eq_false _).mp fun htd => ?_⟩
  obtain ⟨ds,hds⟩ := h.reading.data hd htd
  rw [hds] at hn
  obtain ⟨d,-,hd'⟩ := List.mem_map.mp hn
  cases hd'

/-- A reader that has seen the end of the stream sees it again. -/
theorem recv_again (hd : s.body.dataDone = true) (htd : s.body.trailersDone = true) :
    s.step L .recv = some { s with yielded := s.yielded ++ [none] } := by
  obtain ⟨sender,⟨half,dd,td⟩,ys⟩ := s
  cases hd
  cases htd
  rfl

/-- Behind the end of the stream a reader is shown no error. -/
theorem TransferInv.error_before_end (h : TransferInv b s) (hn : none ∈ s.yielded) {l : TransferLabel}
    (hst : s.step L l = some t) {e : CoreError} (he : some (.error e) ∈ t.yielded) :
    some (.error e) ∈ s.yielded := by
  obtain ⟨hd,htd⟩ := h.done_of_none hn
  rcases Transfer.step_yielded hst with hy | ⟨rfl,-⟩
  · rwa [hy] at he
  · rw [recv_again hd htd] at hst
    cases hst
    rcases List.mem_append.mp he with he | he
    · exact he
    · cases List.mem_singleton.mp he

/-- A reader that has seen the end without an error has read everything on a wire that
was closed in good order, and then what closed it. -/
theorem TransferInv.ended (h : TransferInv b s) (hn : none ∈ s.yielded)
    (hne : ∀ e, some (.error e) ∉ s.yielded) :
    ∃ ds c k, s.sender.wire.closing = some c ∧ c ≠ .broken ∧
      s.yielded = dataFrames ds ++ c.results ++ List.replicate k none ∧
      ds.flatten = s.sender.wire.tape.written.reduceOption ∧ none ∉ s.sender.wire.tape.written.dropLast := by
  obtain ⟨hd,htd⟩ := h.done_of_none hn
  obtain ⟨ds,k,⟨c,hc,hcl,hch,⟨o,ho⟩,hy⟩ | ⟨e,-,hy⟩⟩ := h.reading.done hd htd
  · obtain ⟨past,hflow⟩ := h.flow
    have hwritten := hflow.pulled
    rw [(h.arrived o ho).1.pulled,hch,List.append_nil] at hwritten
    refine ⟨ds,c,k,hc,hcl,hy,?_,?_⟩
    · have hres : yieldedData c.results = [] := by cases c <;> rfl
      have hdata := hflow.data
      rw [hy,yieldedData_append,yieldedData_append,yieldedData_replicate_none,hres,yieldedData_dataFrames,
        List.append_nil,List.append_nil] at hdata
      rw [hwritten,reduceOption_cells,hdata]
    · rw [hwritten,none_mem_dropLast_cells]
      exact hflow.front
  · refine (hne e ?_).elim
    rw [hy]
    exact List.mem_append_right _ List.mem_cons_self

/-- A reader is shown an error where the stream has failed, or where the body has an empty
frame in front of another one. -/
theorem TransferInv.error_cause (h : TransferInv b s) {e : CoreError} (he : some (.error e) ∈ s.yielded) :
    (∃ m, s.body.stream.ending = some (.error m)) ∨ [] ∈ b.frames.dropLast := by
  have hnodata (ds : List Bytes) : some (.error e) ∉ dataFrames ds := by
    intro hmem
    obtain ⟨d,-,hd⟩ := List.mem_map.mp hmem
    cases hd
  cases hd : s.body.dataDone with
  | false =>
    rcases (h.reading.undone hd).2 _ he with ⟨d,hd'⟩ | ⟨-,-,hm⟩
    · cases hd'
    · exact .inl hm
  | true =>
    cases htd : s.body.trailersDone with
    | false =>
      obtain ⟨ds,hds⟩ := h.reading.data hd htd
      rw [hds] at he
      exact (hnodata ds he).elim
    | true =>
      obtain ⟨ds,k,⟨c,-,-,-,-,hy⟩ | ⟨e',hne | hm,-⟩⟩ := h.reading.done hd htd
      · rw [hy] at he
        rcases List.mem_append.mp he with he | he
        · rcases List.mem_append.mp he with he | he
          · exact (hnodata ds he).elim
          · cases c <;> simp [Closing.results] at he
        · cases List.eq_of_mem_replicate he
      · obtain ⟨past,hflow⟩ := h.flow
        have hpast : [] ∈ past := (hflow.done hd).resolve_right fun hend => hne hend.1
        have hfront : [] ∈ (past ++ s.body.stream.chunks).dropLast := by
          rw [List.dropLast_append_of_ne_nil hne]
          exact List.mem_append_left _ hpast
        have hcells : s.sender.wire.tape.pulled <+: b.cells := by
          refine h.pulled_initial.trans ?_
          rw [Body.cells,← h.sender.stock,List.flatMap_append]
          exact List.prefix_append ..
        rw [← none_mem_dropLast_cells,← hflow.pulled] at hfront
        refine .inr ((none_mem_dropLast_cells b.frames).mp ?_)
        exact (dropLast_prefix_dropLast hcells).subset hfront
      · exact .inl hm

end GrpcQuic
