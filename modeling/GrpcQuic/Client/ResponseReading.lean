import GrpcQuic.Client.RpcGuarantees

/-! # What the response body yields

As long as no error waits on the forwarder's channel the body yields what the
response stream delivers, chunk by chunk, then its trailers and its end.
-/
namespace GrpcQuic.Rpc
open Transition

def endResults : Option (Except String (Option HeaderMap)) → List FrameResult
  | some (.ok none) => [none]
  | some (.ok (some trailers)) => [some (.ok (.trailers trailers)),none]
  | _ => []

/-- The chunks with data. An empty one stands for a DATA frame that carries none. -/
def fullChunks (arrived : List Bytes) : List Bytes := arrived.filter fun d => !d.isEmpty

def State.expected (s : State) : List FrameResult :=
  dataFrames (fullChunks s.arrived) ++ endResults s.arrivedEnd

def upToEnd : List FrameResult → List FrameResult
  | [] => []
  | none :: _ => [none]
  | some r :: rs => some r :: upToEnd rs

/-- The reading follows the response, and has all of it once it has ended. -/
def Unmasked (s : State) : Prop :=
  upToEnd s.yielded <+: s.expected ∧ (none ∈ s.yielded → upToEnd s.yielded = s.expected)

/-- The response stream has no receive error, nor a DATA frame behind an empty one, which
is an error for h3; and the deadline of the body has not elapsed at any poll before its end. -/
def Undisturbed (s : State) (l : Label) : Prop :=
  (∀ m, l ≠ .arriveEnd (.error m)) ∧ (∀ d, l = .arrive d → [] ∉ s.arrived) ∧
    (l = .poll → none ∉ s.yielded → ∀ b, s.body = .present b → b.elapsed s.now = false)

/-- No poll before the end finds an error on the forwarder's channel. -/
def SenderSilent (s : State) (l : Label) : Prop :=
  l = .poll → none ∉ s.yielded → ∀ b, s.body = .present b → b.errRx = true → ∀ e, s.err ≠ .sent e

theorem upToEnd_of_notMem {rs : List FrameResult} (h : none ∉ rs) : upToEnd rs = rs := by
  induction rs with
  | nil => rfl
  | cons r rs ih =>
    cases r with
    | none => exact (h List.mem_cons_self).elim
    | some r => exact congrArg (some r :: ·) (ih fun hn => h (List.mem_cons_of_mem _ hn))

theorem upToEnd_append_of_mem {rs : List FrameResult} (h : none ∈ rs) (qs : List FrameResult) :
    upToEnd (rs ++ qs) = upToEnd rs := by
  induction rs with
  | nil => cases h
  | cons r rs ih =>
    cases r with
    | none => rfl
    | some r => exact congrArg (some r :: ·) (ih ((List.mem_cons.mp h).resolve_left nofun))

theorem upToEnd_concat {rs : List FrameResult} (h : none ∉ rs) (r : FrameResult) :
    upToEnd (rs ++ [r]) = rs ++ [r] := by
  induction rs with
  | nil => cases r <;> rfl
  | cons q rs ih =>
    cases q with
    | none => exact (h List.mem_cons_self).elim
    | some q => exact congrArg (some q :: ·) (ih fun hn => h (List.mem_cons_of_mem _ hn))

theorem upToEnd_append (rs qs : List FrameResult) : upToEnd rs <+: upToEnd (rs ++ qs) := by
  by_cases h : none ∈ rs
  · rw [upToEnd_append_of_mem h]
  · rw [upToEnd_of_notMem h]
    induction rs with
    | nil => exact List.nil_prefix
    | cons r rs ih =>
      cases r with
      | none => exact (h List.mem_cons_self).elim
      | some r =>
        exact List.cons_prefix_cons.mpr ⟨rfl,ih fun hn => h (List.mem_cons_of_mem _ hn)⟩

theorem none_notMem_dataFrames (ds : List Bytes) : none ∉ dataFrames ds := by
  intro h
  obtain ⟨d,-,hd⟩ := List.mem_map.mp h
  cases hd

theorem error_notMem_expected (s : State) (e : CoreError) : some (.error e) ∉ s.expected := by
  intro h
  rcases List.mem_append.mp h with hd | he
  · obtain ⟨d,-,hd⟩ := List.mem_map.mp hd
    cases hd
  · unfold endResults at he
    split at he <;> simp at he

theorem fullChunks_of_notMem {ds : List Bytes} (h : [] ∉ ds) : fullChunks ds = ds := by
  refine List.filter_eq_self.mpr fun d hd => ?_
  cases d with
  | nil => exact (h hd).elim
  | cons b rest => rfl

theorem fullChunks_past {past : List Bytes} (h : [] ∉ past) (rest : List Bytes) :
    fullChunks (past ++ rest) = past ++ fullChunks rest := by
  rw [fullChunks,List.filter_append]
  exact congrArg (· ++ _) (fullChunks_of_notMem h)

structure Orderly (s : State) : Prop where
  noError : ∀ m, s.arrivedEnd ≠ some (.error m)
  front : [] ∉ s.arrived.dropLast

structure Unread (s : State) (b : ClientRecvBody RecvHalf) : Prop where
  notClosed : b.isClosed = false
  dataDone : b.dataDone = false
  trailersDone : b.trailersDone = false
  ending : b.stream.ending = s.arrivedEnd
  data : ∃ past, [] ∉ past ∧ s.yielded = dataFrames past ∧ s.arrived = past ++ b.stream.chunks

structure Drained (s : State) (b : ClientRecvBody RecvHalf) : Prop where
  notClosed : b.isClosed = false
  dataDone : b.dataDone = true
  trailersDone : b.trailersDone = false
  ending : b.stream.ending = s.arrivedEnd
  chunks : b.stream.chunks = []
  empty : [] ∈ s.arrived
  data : s.yielded = dataFrames (fullChunks s.arrived)

structure AtTrailers (s : State) (b : ClientRecvBody RecvHalf) : Prop where
  notClosed : b.isClosed = false
  dataDone : b.dataDone = true
  trailersDone : b.trailersDone = true
  ending : b.stream.ending ≠ none
  undone : none ∉ s.yielded
  rest : s.yielded ++ [none] = s.expected

structure Over (s : State) (b : ClientRecvBody RecvHalf) : Prop where
  dataDone : b.dataDone = true
  trailersDone : b.trailersDone = true
  ending : b.stream.ending ≠ none
  done : none ∈ s.yielded
  all : upToEnd s.yielded = s.expected

def Open (s : State) (b : ClientRecvBody RecvHalf) : Prop := Unread s b ∨ Drained s b ∨ AtTrailers s b

def Reads (s : State) : Prop :=
  match s.body with
  | .absent => s.yielded = [] ∧
    ∀ half, s.half = some half → half.chunks = s.arrived ∧ half.ending = s.arrivedEnd
  | .present b => s.half = none ∧ (Open s b ∨ Over s b)
  | .dropped => s.half = none ∧ Unmasked s

variable {req : Request} {s t : State} {b : ClientRecvBody RecvHalf}

theorem Unread.undone (h : Unread s b) : none ∉ s.yielded := by
  obtain ⟨past,-,hy,-⟩ := h.data
  rw [hy]
  exact none_notMem_dataFrames past

theorem Unread.unmasked (h : Unread s b) : Unmasked s := by
  refine ⟨?_,fun hn => (h.undone hn).elim⟩
  obtain ⟨past,hpast,hy,ha⟩ := h.data
  rw [upToEnd_of_notMem h.undone,State.expected,ha,fullChunks_past hpast,hy,dataFrames,dataFrames,List.map_append,
    List.append_assoc]
  exact List.prefix_append ..

theorem Drained.undone (h : Drained s b) : none ∉ s.yielded := by
  rw [h.data]
  exact none_notMem_dataFrames _

theorem Drained.unmasked (h : Drained s b) : Unmasked s := by
  refine ⟨?_,fun hn => (h.undone hn).elim⟩
  rw [upToEnd_of_notMem h.undone,State.expected,h.data]
  exact List.prefix_append ..

theorem AtTrailers.unmasked (h : AtTrailers s b) : Unmasked s := by
  refine ⟨?_,fun hn => (h.undone hn).elim⟩
  rw [upToEnd_of_notMem h.undone,← h.rest]
  exact List.prefix_append ..

theorem Over.unmasked (h : Over s b) : Unmasked s :=
  ⟨h.all ▸ List.prefix_rfl,fun _ => h.all⟩

theorem Open.undone (h : Open s b) : none ∉ s.yielded := by
  rcases h with h | h | h
  · exact h.undone
  · exact h.undone
  · exact h.undone

theorem Open.notClosed (h : Open s b) : b.isClosed = false := by
  rcases h with h | h | h
  · exact h.notClosed
  · exact h.notClosed
  · exact h.notClosed

theorem Open.unmasked (h : Open s b) : Unmasked s := by
  rcases h with h | h | h
  · exact h.unmasked
  · exact h.unmasked
  · exact h.unmasked

theorem Reads.unmasked (h : Reads s) : Unmasked s := by
  unfold Reads at h
  split at h
  · have hy := h.1
    unfold Unmasked
    rw [hy]
    exact ⟨List.nil_prefix,nofun⟩
  · exact h.2.elim Open.unmasked Over.unmasked
  · exact h.2

theorem reads_absent (hb : s.body = .absent) (hy : s.yielded = [])
    (hh : ∀ half, s.half = some half → half.chunks = s.arrived ∧ half.ending = s.arrivedEnd) : Reads s := by
  unfold Reads
  rw [hb]
  exact ⟨hy,hh⟩

theorem reads_present (hb : s.body = .present b) (hh : s.half = none)
    (h : Open s b ∨ Over s b) : Reads s := by
  unfold Reads
  rw [hb]
  exact ⟨hh,h⟩

theorem Reads.absent (h : Reads s) (hb : s.body = .absent) : s.yielded = [] ∧
    ∀ half, s.half = some half → half.chunks = s.arrived ∧ half.ending = s.arrivedEnd := by
  unfold Reads at h
  rw [hb] at h
  exact h

theorem Reads.present (h : Reads s) (hb : s.body = .present b) :
    s.half = none ∧ (Open s b ∨ Over s b) := by
  unfold Reads at h
  rw [hb] at h
  exact h

theorem drained_cases (half : RecvHalf) (hch : half.chunks = []) (hm : ∀ m, half.ending ≠ some (.error m)) :
    (half.ending = none ∧ ServerRecvBody.pollFrame ⟨half,true,false⟩ = (.pending,⟨half,true,false⟩)) ∨
    (∃ o, half.ending = some (.ok o) ∧ ServerRecvBody.pollFrame ⟨half,true,false⟩ =
      (.ready (o.map fun t => .ok (.trailers t)),⟨⟨[],some (.ok none)⟩,true,true⟩)) := by
  rcases half.pollFrame_drained with ⟨-,he,hp⟩ | ⟨m,hne | ⟨m',he⟩,-⟩ | ⟨o,-,he,hp⟩
  · exact .inl ⟨he,hp⟩
  · exact (hne hch).elim
  · exact (hm m' he).elim
  · exact .inr ⟨o,he,hp⟩

/-- Before its end the body of a response without a receive error yields what is
next, and no error that does not come from the forwarder. -/
theorem poll_cases (hr : Open s b) (hm : Orderly s) :
    (∃ past d rest, d ≠ [] ∧ [] ∉ past ∧ s.yielded = dataFrames past ∧ s.arrived = past ++ d :: rest ∧
      b.toServerRecvBody.pollFrame = (.ready (some (.ok (.data d))),⟨⟨rest,s.arrivedEnd⟩,false,false⟩)) ∨
    (Unread s b ∧ s.arrivedEnd = none ∧ b.toServerRecvBody.pollFrame = (.pending,b.toServerRecvBody)) ∨
    ([] ∈ s.arrived ∧ s.arrivedEnd = none ∧ s.yielded = dataFrames (fullChunks s.arrived) ∧
      b.toServerRecvBody.pollFrame = (.pending,⟨⟨[],none⟩,true,false⟩)) ∨
    (∃ o, s.arrivedEnd = some (.ok o) ∧ s.yielded = dataFrames (fullChunks s.arrived) ∧
      b.toServerRecvBody.pollFrame =
        (.ready (o.map fun t => .ok (.trailers t)),⟨⟨[],some (.ok none)⟩,true,true⟩)) ∨
    (AtTrailers s b ∧ b.toServerRecvBody.pollFrame = (.ready none,b.toServerRecvBody)) := by
  rcases b with ⟨⟨half,dd,td⟩,ic,rx,ah,dl⟩
  rcases hr with hu | hd | ha
  · have hdd : dd = false := hu.dataDone
    have htd : td = false := hu.trailersDone
    have he : half.ending = s.arrivedEnd := hu.ending
    obtain ⟨past,hpast,hy,harr⟩ := hu.data
    have harr : s.arrived = past ++ half.chunks := harr
    subst hdd htd
    rcases half.pollFrame_undone with ⟨d,rest,hch,hne,hp⟩ | ⟨-,hn,hp⟩ | ⟨m,⟨-,m',hn⟩,-⟩ |
      ⟨gone,rest,hch,hg,hp⟩
    · rw [hch] at harr
      exact .inl ⟨past,d,rest,hne,hpast,hy,harr,he ▸ hp⟩
    · exact .inr (.inl ⟨hu,he ▸ hn,hp⟩)
    · exact (hm.noError m' (he ▸ hn)).elim
    · have hrest : rest = [] := by
        rcases hg with rfl | ⟨-,hrest,-⟩
        · by_contra hne
          refine hm.front ?_
          rw [harr,hch,← List.append_assoc,List.dropLast_append_of_ne_nil hne]
          exact List.mem_append_left _ (List.mem_append_right _ (List.mem_singleton_self _))
        · exact hrest
      rw [hch,hrest,List.append_nil] at harr
      have hfull : s.yielded = dataFrames (fullChunks s.arrived) := by
        have hgone : fullChunks gone = [] := by rcases hg with rfl | ⟨rfl,-⟩ <;> rfl
        rw [hy,harr,fullChunks_past hpast,hgone,List.append_nil]
      subst hrest
      rcases drained_cases ⟨[],half.ending⟩ rfl (fun m hn => hm.noError m (he ▸ hn)) with
        ⟨hn,hq⟩ | ⟨o,hn,hq⟩
      · have hempty : [] ∈ s.arrived := by
          rcases hg with rfl | ⟨-,-,o,ho⟩
          · rw [harr]
            exact List.mem_append_right _ (List.mem_singleton_self _)
          · cases ho.symm.trans hn
        refine .inr (.inr (.inl ⟨hempty,he ▸ hn,hfull,?_⟩))
        exact (hp.trans hq).trans (by rw [show half.ending = none from hn])
      · exact .inr (.inr (.inr (.inl ⟨o,he ▸ hn,hfull,hp.trans hq⟩)))
  · have hdd : dd = true := hd.dataDone
    have htd : td = false := hd.trailersDone
    have he : half.ending = s.arrivedEnd := hd.ending
    have hch : half.chunks = [] := hd.chunks
    subst hdd htd
    rcases drained_cases half hch (fun m hn => hm.noError m (he ▸ hn)) with ⟨hn,hq⟩ | ⟨o,hn,hq⟩
    · refine .inr (.inr (.inl ⟨hd.empty,he ▸ hn,hd.data,?_⟩))
      rw [show half = ⟨[],none⟩ by rw [← hch,← hn]] at hq ⊢
      exact hq
    · exact .inr (.inr (.inr (.inl ⟨o,he ▸ hn,hd.data,hq⟩)))
  · have hdd : dd = true := ha.dataDone
    have htd : td = true := ha.trailersDone
    subst hdd htd
    exact .inr (.inr (.inr (.inr ⟨ha,rfl⟩)))

theorem poll_reads {t : State} {b' : ClientRecvBody RecvHalf} {r : Poll FrameResult}
    {inner : ServerRecvBody RecvHalf} (hr : Open s b) (hm : Orderly s)
    (hp : b.toServerRecvBody.pollFrame = (r,inner)) (hc : b'.isClosed = false)
    (hb : b'.toServerRecvBody = inner) (hy : t.yielded = s.yielded ++ r.toList)
    (ha : t.arrived = s.arrived) (he : t.arrivedEnd = s.arrivedEnd) : Open t b' ∨ Over t b' := by
  have hx : t.expected = s.expected := by unfold State.expected; rw [ha,he]
  rcases poll_cases hr hm with ⟨past,d,rest,hne,hpast,hys,harr,hq⟩ | ⟨hu,hn,hq⟩ | ⟨hempty,hn,hys,hq⟩ |
    ⟨o,hn,hys,hq⟩ | ⟨hu,hq⟩ <;> cases hp.symm.trans hq
  · refine .inl (.inl ⟨hc,by rw [hb],by rw [hb],by rw [hb,he],past ++ [d],fun hmem => ?_,?_,?_⟩)
    · rcases List.mem_append.mp hmem with hmem | hmem
      · exact hpast hmem
      · exact hne (List.mem_singleton.mp hmem).symm
    · rw [hy,hys,dataFrames,dataFrames,List.map_append]
      rfl
    · rw [ha,harr,hb,List.append_cons]
  · obtain ⟨past,hpast,hys,harr⟩ := hu.data
    refine .inl (.inl ⟨hc,by rw [hb]; exact hu.dataDone,by rw [hb]; exact hu.trailersDone,
      by rw [hb,he]; exact hu.ending,past,hpast,?_,?_⟩)
    · rw [hy]
      exact (List.append_nil _).trans hys
    · rw [ha,harr,hb]
  · refine .inl (.inr (.inl ⟨hc,by rw [hb],by rw [hb],by rw [hb,he,hn],by rw [hb],by rw [ha]; exact hempty,?_⟩))
    rw [hy,ha]
    exact (List.append_nil _).trans hys
  · cases o with
    | some trailers =>
      refine .inl (.inr (.inr ⟨hc,by rw [hb],by rw [hb],by rw [hb]; exact nofun,?_,?_⟩))
      · rw [hy,hys]
        exact fun hmem => (List.mem_append.mp hmem).elim (none_notMem_dataFrames _) (by simp [Poll.toList])
      · rw [hx,State.expected,hn,hy,hys,List.append_assoc]
        rfl
    | none =>
      refine .inr ⟨by rw [hb],by rw [hb],by rw [hb]; exact nofun,?_,?_⟩
      · rw [hy]
        exact List.mem_append_right _ (List.mem_singleton_self _)
      · rw [hx,State.expected,hn,hy,hys]
        exact upToEnd_concat (none_notMem_dataFrames _) none
  · refine .inr ⟨by rw [hb]; exact hu.dataDone,by rw [hb]; exact hu.trailersDone,
      by rw [hb]; exact hu.ending,?_,?_⟩
    · rw [hy]
      exact List.mem_append_right _ (List.mem_singleton_self _)
    · rw [hx,hy]
      exact (upToEnd_concat hu.undone none).trans hu.rest

/-- Past its end the body keeps what it has read, whatever it yields. -/
theorem Over.poll {t : State} (h : Over s b) {r : Poll FrameResult} {b' : ClientRecvBody RecvHalf}
    (hp : b.pollFrame s.now s.err = (r,b')) (hy : t.yielded = s.yielded ++ r.toList)
    (ha : t.arrived = s.arrived) (he : t.arrivedEnd = s.arrivedEnd) : Over t b' := by
  have hkeep : b'.dataDone = true ∧ b'.trailersDone = true ∧ b'.stream = b.stream := by
    have hq : b.toServerRecvBody.pollFrame = (.ready none,b.toServerRecvBody) := by
      unfold ServerRecvBody.pollFrame ServerRecvBody.pollTrailers
      rw [if_pos h.dataDone,if_pos h.trailersDone]
    rcases b.pollFrame_cases s.now s.err with ⟨-,hc⟩ | ⟨-,-,x,hc,-⟩ | ⟨-,-,-,e,-,hc⟩ | ⟨-,-,-,rx,-,hc⟩ <;>
      cases hp.symm.trans hc
    · exact ⟨h.dataDone,h.trailersDone,rfl⟩
    · exact ⟨h.dataDone,rfl,rfl⟩
    · exact ⟨h.dataDone,h.trailersDone,rfl⟩
    · rw [hq]
      exact ⟨h.dataDone,h.trailersDone,rfl⟩
  have hx : t.expected = s.expected := by unfold State.expected; rw [ha,he]
  refine ⟨hkeep.1,hkeep.2.1,by rw [hkeep.2.2]; exact h.ending,?_,?_⟩
  · rw [hy]
    exact List.mem_append_left _ h.done
  · rw [hx,hy,upToEnd_append_of_mem h.done]
    exact h.all

/-- Chunks and endings arrive only while the stream is still being read. -/
theorem Open.of_open (h : Open s b ∨ Over s b) (he : b.stream.ending = none) : Unread s b ∨ Drained s b := by
  rcases h with (h | h | h) | h
  · exact .inl h
  · exact .inr h
  · exact (h.ending he).elim
  · exact (h.ending he).elim

theorem Reads.half_absent (h : Reads s) (hh : s.half ≠ none) : s.body = .absent := by
  unfold Reads at h
  split at h
  · assumption
  · exact (hh h.1).elim
  · exact (hh h.1).elim

theorem Reads.arrive (h : Reads s) {d : Bytes} (hd : [] ∉ s.arrived) {u : State}
    (hu : s.mapHalf (fun half => { half with chunks := half.chunks ++ [d] }) = some u) :
    Reads { u with arrived := s.arrived ++ [d] } := by
  rcases mapHalf_cases hu with ⟨half,hh,he,rfl⟩ | ⟨b,hh,hb,he,rfl⟩
  · have hb := h.half_absent (by rw [hh]; exact nofun)
    obtain ⟨hy,hr⟩ := h.absent hb
    refine reads_absent hb hy fun half' hh' => ?_
    cases hh'
    exact ⟨congrArg (· ++ [d]) (hr half hh).1,(hr half hh).2⟩
  · rcases Open.of_open (h.present hb).2 he with hr | hr
    · obtain ⟨past,hpast,hy,harr⟩ := hr.data
      refine reads_present rfl hh (.inl (.inl ⟨hr.notClosed,hr.dataDone,hr.trailersDone,hr.ending,past,hpast,hy,?_⟩))
      rw [← List.append_assoc,← harr]
    · exact (hd hr.empty).elim

theorem Reads.arriveEnd (h : Reads s) {e : Except String (Option HeaderMap)} {u : State}
    (hu : s.mapHalf (fun half => { half with ending := some e }) = some u) :
    Reads { u with arrivedEnd := some e } := by
  rcases mapHalf_cases hu with ⟨half,hh,he,rfl⟩ | ⟨b,hh,hb,he,rfl⟩
  · have hb := h.half_absent (by rw [hh]; exact nofun)
    obtain ⟨hy,hr⟩ := h.absent hb
    refine reads_absent hb hy fun half' hh' => ?_
    cases hh'
    exact ⟨(hr half hh).1,rfl⟩
  · rcases Open.of_open (h.present hb).2 he with hr | hr
    · exact reads_present rfl hh (.inl (.inl ⟨hr.notClosed,hr.dataDone,hr.trailersDone,rfl,hr.data⟩))
    · exact reads_present rfl hh
        (.inl (.inr (.inl ⟨hr.notClosed,hr.dataDone,hr.trailersDone,rfl,hr.chunks,hr.empty,hr.data⟩)))

theorem Reads.call (h : Reads s) (hO : OwnerInv s) {e : Call.Event} {cs : Call.State}
    (hd : s.dropped = false) (hcs : Call.step req.call s.call e = some cs) :
    Reads ((s.goOn req cs).onEvent req e) := by
  rcases onEvent_cases hO hd hcs with
    ⟨-,hb,ht⟩ | ⟨res,half,-,hb,hh,ht | ht⟩ | ⟨-,hb,-,ht⟩ <;>
    obtain ⟨hy,hr⟩ := h.absent hb <;> rw [ht]
  · refine reads_absent hb hy fun half hh => ?_
    cases hh
    exact ⟨rfl,rfl⟩
  · exact reads_present rfl rfl (.inl (.inl ⟨rfl,rfl,rfl,(hr half hh).2,[],List.not_mem_nil,hy,(hr half hh).1.symm⟩))
  · exact reads_absent hb hy (by rintro half ⟨⟩)
  · exact reads_absent hb hy hr

theorem Reads.drop (h : Reads s) (hO : OwnerInv s) (hp : s.pending = true) : Reads s.dropCall := by
  have hb := hO.early ((pending_iff s).mp hp).2
  exact reads_absent hb (h.absent hb).1 nofun

theorem Reads.same (h : Reads s) (hb : t.body = s.body) (hh : t.half = s.half)
    (hy : t.yielded = s.yielded) (ha : t.arrived = s.arrived) (he : t.arrivedEnd = s.arrivedEnd) :
    Reads t := by
  have hx : t.expected = s.expected := by unfold State.expected; rw [ha,he]
  cases hs : s.body with
  | absent =>
    obtain ⟨hy',hr⟩ := h.absent hs
    rw [← hh,← ha,← he] at hr
    exact reads_absent (hb.trans hs) (hy.trans hy') hr
  | present b =>
    obtain ⟨hn,hr⟩ := h.present hs
    refine reads_present (hb.trans hs) (hh.trans hn) ?_
    rcases hr with (hr | hr | hr) | hr
    · exact .inl (.inl ⟨hr.1,hr.2,hr.3,he ▸ hr.4,by rw [hy,ha]; exact hr.5⟩)
    · exact .inl (.inr (.inl ⟨hr.1,hr.2,hr.3,he ▸ hr.4,hr.5,ha ▸ hr.6,by rw [hy,ha]; exact hr.7⟩))
    · exact .inl (.inr (.inr ⟨hr.1,hr.2,hr.3,hr.4,hy ▸ hr.5,by rw [hy,hx]; exact hr.6⟩))
    · exact .inr ⟨hr.1,hr.2,hr.3,hy ▸ hr.4,by rw [hy,hx]; exact hr.5⟩
  | dropped =>
    unfold Reads at h ⊢
    rw [hs] at h
    rw [hb,hs]
    unfold Unmasked at h ⊢
    rw [hh,hy,hx]
    exact h

theorem poll_records (hst : step req s .poll = some t) : ∃ b r b', s.body = .present b ∧
    b.pollFrame s.now s.err = (r,b') ∧ t.body = .present b' ∧ t.yielded = s.yielded ++ r.toList ∧
      t.half = s.half ∧ t.arrived = s.arrived ∧ t.arrivedEnd = s.arrivedEnd ∧ t.now = s.now ∧
        (b.elapsed s.now = false → t.err = s.err) := by
  rcases step_cases hst with ⟨e,cs,hl,-⟩ | ⟨hl | hl,-⟩ | ⟨m,f,f',hl,-⟩ | ⟨d,u,hl,-⟩ | ⟨e,u,hl,-⟩ |
    ⟨n,hl,-⟩ | ⟨b,-,hb,rfl⟩ | ⟨b,hl,-⟩ <;> try cases hl
  refine ⟨b,_,_,hb,rfl,rfl,rfl,?_,?_,?_,?_,fun he => ?_⟩
  · cases b.pollAborts s.now <;> rfl
  · cases b.pollAborts s.now <;> rfl
  · cases b.pollAborts s.now <;> rfl
  · cases b.pollAborts s.now <;> rfl
  · have ha : b.pollAborts s.now = false := by
      unfold ClientRecvBody.pollAborts
      rw [he,Bool.and_false,Bool.false_and]
    rw [ha]
    rfl

/-- A poll spoils the reading exactly when it finds the forwarder's error. -/
theorem Reads.poll (h : Reads s) (hm : Orderly s)
    (hU : Undisturbed s .poll) (hst : step req s .poll = some t) :
    (SenderSilent s .poll ∧ Reads t) ∨
      (¬ SenderSilent s .poll ∧ ∃ e, some (.error e) ∈ upToEnd t.yielded) := by
  obtain ⟨b,r,b',hb,hp,hb',hy,hh,ha,he,-,-⟩ := poll_records hst
  obtain ⟨hn,hr⟩ := h.present hb
  rcases hr with hu | hu
  · have hno := hu.undone
    have hc := hu.notClosed
    have hel := hU.2.2 rfl hno b hb
    rcases b.pollFrame_cases s.now s.err with ⟨hc',-⟩ | ⟨-,hel',-⟩ | ⟨-,-,hrx,e,he',hq⟩ |
      ⟨-,-,hsil,rx,hrx,hq⟩
    · exact (Bool.false_ne_true (hc.symm.trans hc')).elim
    · exact (Bool.false_ne_true (hel.symm.trans hel')).elim
    · cases hp.symm.trans hq
      refine .inr ⟨fun hs => hs rfl hno b hb hrx e he',e,?_⟩
      rw [hy,show (Poll.ready (some (.error e)) : Poll FrameResult).toList = [some (.error e)] from rfl,
        upToEnd_concat hno]
      exact List.mem_append_right _ (List.mem_singleton_self _)
    · cases hp.symm.trans hq
      refine .inl ⟨fun _ _ b₀ hb₀ => ?_,?_⟩
      · cases hb.symm.trans hb₀
        exact hsil
      · exact reads_present hb' (hh.trans hn) (poll_reads hu hm rfl hc rfl hy ha he)
  · exact .inl ⟨fun _ hno => (hno hu.done).elim,
      reads_present hb' (hh.trans hn) (.inr (hu.poll hp hy ha he))⟩

theorem Reads.dropBody (h : Reads s) (hb : s.body = .present b) :
    Reads { s.abortIf b.dropAborts with body := .dropped } := by
  have hn := (h.present hb).1
  have hu := h.unmasked
  unfold Reads
  cases b.dropAborts <;> exact ⟨hn,hu⟩

/-- Only polls add to the reading, and a step without a receive error keeps the response
orderly. -/
theorem step_records (hO : OwnerInv s) (hm : Orderly s) {l : Label} (hl : l ≠ .poll) (hU : Undisturbed s l)
    (hst : step req s l = some t) : t.yielded = s.yielded ∧ Orderly t := by
  have hkeep {f : RecvHalf → RecvHalf} {u : State} (hu : s.mapHalf f = some u) :
      u.yielded = s.yielded ∧ u.arrived = s.arrived ∧ u.arrivedEnd = s.arrivedEnd := by
    rcases mapHalf_cases hu with ⟨half,-,-,rfl⟩ | ⟨b,-,-,-,rfl⟩ <;> exact ⟨rfl,rfl,rfl⟩
  rcases step_cases hst with ⟨e,cs,-,hd,hcs,rfl⟩ | ⟨-,-,rfl⟩ | ⟨m,f,f',-,-,-,-,rfl⟩ | ⟨d,u,rfl,hu,rfl⟩ |
    ⟨e,u,rfl,hu,rfl⟩ | ⟨n,-,rfl⟩ | ⟨b,hp,-⟩ | ⟨b,-,-,rfl⟩
  · rcases onEvent_cases hO hd hcs with
      ⟨-,-,ht⟩ | ⟨res,half,-,-,-,ht | ht⟩ | ⟨-,-,-,ht⟩ <;> rw [ht]
    · exact ⟨rfl,by rintro m ⟨⟩,List.not_mem_nil⟩
    · exact ⟨rfl,hm.noError,hm.front⟩
    · exact ⟨rfl,hm.noError,hm.front⟩
    · exact ⟨rfl,hm.noError,hm.front⟩
  · exact ⟨rfl,hm.noError,hm.front⟩
  · exact ⟨rfl,hm.noError,hm.front⟩
  · obtain ⟨hy,-,he⟩ := hkeep hu
    refine ⟨hy,fun m => he ▸ hm.noError m,?_⟩
    rw [List.dropLast_concat]
    exact hU.2.1 d rfl
  · obtain ⟨hy,ha,-⟩ := hkeep hu
    refine ⟨hy,fun m he => hU.1 m ?_,ha ▸ hm.front⟩
    cases he
    rfl
  · exact ⟨rfl,hm.noError,hm.front⟩
  · exact (hl hp).elim
  · cases b.dropAborts <;> exact ⟨rfl,hm.noError,hm.front⟩

theorem step_reads (h : Reads s) (hO : OwnerInv s) {l : Label} (hl : l ≠ .poll) (hU : Undisturbed s l)
    (hst : step req s l = some t) : Reads t := by
  rcases step_cases hst with ⟨e,cs,-,hd,hcs,rfl⟩ | ⟨-,hp,rfl⟩ | ⟨m,f,f',-,-,-,-,rfl⟩ | ⟨d,u,rfl,hu,rfl⟩ |
    ⟨e,u,-,hu,rfl⟩ | ⟨n,-,rfl⟩ | ⟨b,hp,-⟩ | ⟨b,-,hb,rfl⟩
  · exact h.call hO hd hcs
  · exact h.drop hO hp
  · exact h.same rfl rfl rfl rfl rfl
  · exact h.arrive (hU.2.1 d rfl) hu
  · exact h.arriveEnd hu
  · exact h.same rfl rfl rfl rfl rfl
  · exact (hl hp).elim
  · exact h.dropBody hb

structure Follows (s : State) : Prop where
  owner : OwnerInv s
  orderly : Orderly s
  reading : Reads s ∨ ∃ e, some (.error e) ∈ upToEnd s.yielded

theorem follows_init : Follows State.init := ⟨ownerInv_init,⟨nofun,List.not_mem_nil⟩,.inl ⟨rfl,nofun⟩⟩

theorem Follows.reads (h : Follows s) (hU : Unmasked s) : Reads s := by
  rcases h.reading with hr | ⟨e,he⟩
  · exact hr
  · exact (error_notMem_expected s e (hU.1.subset he)).elim

theorem step_follows (h : Follows s) {l : Label} (hU : Undisturbed s l) (hst : step req s l = some t) :
    Follows t := by
  have hO := step_ownerInv h.owner hst
  by_cases hl : l = .poll
  · subst hl
    obtain ⟨b,r,b',-,-,-,hy,-,ha,he,-⟩ := poll_records hst
    refine ⟨hO,⟨he ▸ h.orderly.noError,ha ▸ h.orderly.front⟩,?_⟩
    rcases h.reading with hr | ⟨e,hr⟩
    · exact (hr.poll h.orderly hU hst).imp And.right And.right
    · exact .inr ⟨e,(hy ▸ upToEnd_append s.yielded _ : upToEnd s.yielded <+: upToEnd t.yielded).subset hr⟩
  · obtain ⟨hy,hm⟩ := step_records h.owner h.orderly hl hU hst
    refine ⟨hO,hm,?_⟩
    rw [hy]
    exact h.reading.imp_left fun hr => step_reads hr h.owner hl hU hst

/-- A step keeps the response unmasked exactly when it finds no error of the
forwarder. -/
theorem Follows.unmasked_iff (h : Follows s) (hP : Unmasked s) {l : Label} (hU : Undisturbed s l)
    (hst : step req s l = some t) : Unmasked t ↔ SenderSilent s l := by
  have hr := h.reads hP
  by_cases hl : l = .poll
  · subst hl
    rcases hr.poll h.orderly hU hst with ⟨hs,ht⟩ | ⟨hs,e,he⟩
    · exact ⟨fun _ => hs,fun _ => ht.unmasked⟩
    · exact ⟨fun ht => (error_notMem_expected t e (ht.1.subset he)).elim,fun hs' => (hs hs').elim⟩
  · exact ⟨fun _ hl' => (hl hl').elim,fun _ => (step_reads hr h.owner hl hU hst).unmasked⟩

/-- Once the whole response is there every silent poll yields the next of it. -/
theorem poll_ready (req : Request) (hR : Reads s) (hm : Orderly s) (hb : s.body = .present b) {o : Option HeaderMap}
    (ho : s.arrivedEnd = some (.ok o)) (hel : b.elapsed s.now = false) (hs : SenderSilent s .poll)
    (hno : none ∉ s.yielded) : ∃ t b' r, step req s .poll = some t ∧ t.yielded = s.yielded ++ [r] ∧
      Reads t ∧ Orderly t ∧ t.body = .present b' ∧ t.arrivedEnd = s.arrivedEnd ∧ t.expected = s.expected ∧
        b'.elapsed t.now = false ∧ SenderSilent t .poll := by
  have hst : ∃ t, step req s .poll = some t := by
    simp only [step,hb]
    exact ⟨_,rfl⟩
  obtain ⟨t,hst⟩ := hst
  obtain ⟨b₀,r,b',hb₀,hp,hb',hy,hh,ha,he,hn,herr⟩ := poll_records hst
  cases hb.symm.trans hb₀
  have hU : Undisturbed s .poll := by
    refine ⟨by rintro m ⟨⟩,by rintro d ⟨⟩,fun _ _ b₁ hb₁ => ?_⟩
    cases hb.symm.trans hb₁
    exact hel
  have hu : Open s b := (hR.present hb).2.resolve_right fun hu => hno hu.done
  have hc : b.isClosed = false := hu.notClosed
  have hready : ∃ x, b.toServerRecvBody.pollFrame.1 = .ready x := by
    rcases poll_cases hu hm with ⟨past,d,rest,-,-,-,-,hq⟩ | ⟨-,hnone,-⟩ | ⟨-,hnone,-⟩ | ⟨o,-,-,hq⟩ | ⟨-,hq⟩
    · exact ⟨_,congrArg Prod.fst hq⟩
    · cases ho.symm.trans hnone
    · cases ho.symm.trans hnone
    · exact ⟨_,congrArg Prod.fst hq⟩
    · exact ⟨_,congrArg Prod.fst hq⟩
  obtain ⟨-,ht⟩ := (hR.poll hm hU hst).resolve_right fun hx => hx.1 hs
  rcases b.pollFrame_cases s.now s.err with ⟨hc',-⟩ | ⟨-,hel',-⟩ | ⟨-,-,hrx,e,he',-⟩ |
    ⟨-,-,hsil,rx,hrx,hq⟩
  · exact (Bool.false_ne_true (hc.symm.trans hc')).elim
  · exact (Bool.false_ne_true (hel.symm.trans hel')).elim
  · exact (hs rfl hno b hb hrx e he').elim
  · cases hp.symm.trans hq
    obtain ⟨x,hx⟩ := hready
    rw [hx] at hy
    refine ⟨t,_,x,hst,hy,ht,⟨he ▸ hm.noError,ha ▸ hm.front⟩,hb',he,by unfold State.expected; rw [ha,he],
      by rw [hn]; exact hel,?_⟩
    intro _ _ b₁ hb₁ hrx₁
    cases hb'.symm.trans hb₁
    rw [herr hel]
    exact hsil (hrx hrx₁)

/-- Polled often enough, the body yields the whole response and its end. -/
theorem polls_complete (hR : Reads s) (hm : Orderly s) (hb : s.body = .present b) {o : Option HeaderMap}
    (ho : s.arrivedEnd = some (.ok o)) (hel : b.elapsed s.now = false) (hs : SenderSilent s .poll) :
    ∃ n u, exec (step req) s (List.replicate n .poll) = some u ∧ none ∈ u.yielded ∧
      upToEnd u.yielded = s.expected := by
  generalize hk : s.expected.length - s.yielded.length = k
  induction k generalizing s b with
  | zero =>
    refine ⟨0,s,rfl,?_⟩
    have hend : 0 < (endResults s.arrivedEnd).length := by
      rw [ho]
      cases o <;> exact Nat.succ_pos _
    rcases (hR.present hb).2 with (hu | hu | hu) | hu
    · obtain ⟨past,hpast,hy,ha⟩ := hu.data
      rw [State.expected,ha,fullChunks_past hpast,hy,dataFrames,dataFrames,List.length_append,List.length_map,List.length_map,
        List.length_append] at hk
      omega
    · rw [State.expected,hu.data,List.length_append] at hk
      omega
    · have hx := congrArg List.length hu.rest
      rw [List.length_append,List.length_singleton] at hx
      omega
    · exact ⟨hu.done,hu.all⟩
  | succ k ih =>
    by_cases hno : none ∈ s.yielded
    · exact ⟨0,s,rfl,hno,hR.unmasked.2 hno⟩
    · obtain ⟨t,b',r,hst,hy,ht,hm',hb',he,hx,hel',hs'⟩ := poll_ready req hR hm hb ho hel hs hno
      have hlen : t.expected.length - t.yielded.length = k := by
        rw [hx,hy,List.length_append,List.length_singleton]
        omega
      obtain ⟨n,u,hu,hn,hall⟩ := ih ht hm' hb' (he.trans ho) hel' hs' hlen
      exact ⟨n + 1,u,exec_cons_eq_some.mpr ⟨t,hst,hu⟩,hn,hall.trans hx⟩

/-- In every undisturbed run the response body yields the response, and all of it
when it is polled to the end, if and only if no poll before the end finds an error
of the forwarder. -/
theorem response_unmasked_iff {ls : List Label} (h : exec (step req) State.init ls = some s)
    (hU : Meets (step req) Undisturbed State.init ls) :
    (Always (step req) Unmasked State.init ls ↔ Meets (step req) SenderSilent State.init ls) ∧
      (Unmasked s → ∀ b o, s.body = .present b → s.arrivedEnd = some (.ok o) → b.elapsed s.now = false →
        SenderSilent s .poll → ∃ n u, exec (step req) s (List.replicate n .poll) = some u ∧
          none ∈ u.yielded ∧ upToEnd u.yielded = s.expected) := by
  constructor
  · exact always_iff_meets (fun _ _ _ hs hH hst => step_follows hs hH hst)
      (fun _ _ _ hs hP hH hst => hs.unmasked_iff hP hH hst) follows_init
      (follows_init.reading.elim Reads.unmasked fun ⟨e,he⟩ => nomatch he) hU h
  · intro hP b o hb ho hel hs
    have hI : Follows s := exec_invariant_of_meets (fun _ _ _ hs hH hst => step_follows hs hH hst)
      follows_init hU h
    exact polls_complete (hI.reads hP) hI.orderly hb ho hel hs

/-- The server answers early and stops reading; the forwarder's send fails before
the caller polls the response, all of which has arrived. -/
def earlyAnswer : List Label :=
  [.call (.acquired true),.call (.pooled (.ok ⟨⟨0⟩,⟨0⟩⟩)),.call (.built (.ok ())),.call (.sent (.ok ())),
   .forward .poll,.forward (.failed "stopped"),.arriveEnd (.ok (some [("grpc-status","16")])),
   .call (.responded (.ok ⟨200,[]⟩)),.poll]

def unaryRequest : Request where
  call := ⟨"localhost",.default,⟨"POST",none,"/hello",[]⟩⟩
  body := .new [[1]] .clean
  deadline := none

theorem earlyAnswer_masked : ∃ s, exec (step unaryRequest) State.init earlyAnswer = some s ∧
    s.expected = [some (.ok (.trailers [("grpc-status","16")])),none] ∧
      s.yielded = [some (.error (.h3Stream "stopped"))] := ⟨_,rfl,rfl,rfl⟩

theorem earlyAnswer_undisturbed :
    Meets (step unaryRequest) Undisturbed State.init earlyAnswer := by
  iterate 8
    refine ⟨⟨nofun,nofun,nofun⟩,?_⟩
    rintro _ ⟨⟩
  refine ⟨⟨nofun,nofun,fun _ _ b hb => ?_⟩,fun _ _ => trivial⟩
  cases hb
  rfl

theorem earlyAnswer_not_always :
    ¬ Always (step unaryRequest) Unmasked State.init earlyAnswer := by
  intro hall
  obtain ⟨s,hs,hx,hy⟩ := earlyAnswer_masked
  have hu := (hall.last hs).1
  rw [hx,hy] at hu
  cases (List.cons_prefix_cons.mp hu).1

theorem early_answer_loses_status : ¬ ∀ req ls s, exec (step req) State.init ls = some s →
    Meets (step req) Undisturbed State.init ls → Always (step req) Unmasked State.init ls := by
  intro h
  obtain ⟨s,hs,-⟩ := earlyAnswer_masked
  exact earlyAnswer_not_always (h _ _ s hs earlyAnswer_undisturbed)

theorem response_unmasked_iff_earlyAnswer :
    ¬ Meets (step unaryRequest) SenderSilent State.init earlyAnswer := by
  intro hm
  obtain ⟨s,hs,-⟩ := earlyAnswer_masked
  exact earlyAnswer_not_always ((response_unmasked_iff hs earlyAnswer_undisturbed).1.mpr hm)

end GrpcQuic.Rpc
