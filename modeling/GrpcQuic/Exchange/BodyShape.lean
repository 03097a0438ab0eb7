import GrpcQuic.Exchange.Transfer
import GrpcQuic.Transition.Polling

/-! # The shape of what a body yields

Runs of the two receiving bodies: the stream under a body may change in any way
between two polls, and the consumer may poll as often as it likes.
-/
namespace GrpcQuic
open Transition

def IsData (result : FrameResult) : Prop := ∃ data, result = some (.ok (.data data))

section
variable {S : Type*}

def ServerRecvBody.setStream (stream : S) (body : ServerRecvBody S) : ServerRecvBody S :=
  { body with stream }

def ClientRecvBody.setStream (stream : S) (body : ClientRecvBody S) : ClientRecvBody S :=
  { body with stream }

def Erred {β : Type*} (s : Polled β (Poll FrameResult)) : Prop :=
  ∃ e, some (.error e) ∈ s.log.flatMap Poll.toList

/-- Every result that ended the stream was an error or has set both flags. -/
structure Settled {β : Type*} (body : ServerRecvBody S) (s : Polled β (Poll FrameResult)) : Prop where
  done : body.trailersDone = true → body.dataDone = true
  ended : Over IsData (s.log.flatMap Poll.toList) → body.trailersDone = true ∨ Erred s

theorem settled_init {β : Type*} (stream : S) (value : β) : Settled (.new stream) ⟨value,[]⟩ :=
  ⟨nofun,fun ⟨_,h,_⟩ => (List.not_mem_nil h).elim⟩

variable [RecvStream S]

def serverStep : Polled (ServerRecvBody S) (Poll FrameResult) → PollLabel S Unit →
    Option (Polled (ServerRecvBody S) (Poll FrameResult)) :=
  Polled.step .setStream fun _ body => body.pollFrame

def clientStep : Polled (ClientRecvBody S) (Poll FrameResult) → PollLabel S (ℕ × Oneshot CoreError) →
    Option (Polled (ClientRecvBody S) (Poll FrameResult)) :=
  Polled.step .setStream fun (now,err) body => body.pollFrame now err

/-- Data frames, one terminal result, and `None` from then on. -/
def FusedResults {β : Type*} (s : Polled β (Poll FrameResult)) : Prop :=
  Fused IsData none (s.log.flatMap Poll.toList)

def QuietTrailers (stream : S) : Prop :=
  ∀ answer, (RecvStream.pollRecvTrailers stream).1 = .ready answer → answer = .ok none

structure ServerRecvBody.Quiet (body : ServerRecvBody S) : Prop where
  trailers : body.dataDone = true → body.trailersDone = false → QuietTrailers body.stream
  data : body.dataDone = false → ∀ answer, (RecvStream.pollRecvData body.stream).1 = .ready answer →
    answer = .ok none ∧
      (body.trailersDone = false → QuietTrailers (RecvStream.pollRecvData body.stream).2)

/-- The body is closed, or the deadline passes after the trailers, or neither the
deadline nor the forwarder has anything to report and the stream is quiet. -/
def ClientRecvBody.Quiet (input : ℕ × Oneshot CoreError) (body : ClientRecvBody S) : Prop :=
  body.isClosed = true ∨ (body.elapsed input.1 = true ∧ body.trailersDone = true) ∨
    (body.elapsed input.1 = false ∧ (body.errRx = true → ∀ e, input.2 ≠ .sent e) ∧
      body.toServerRecvBody.Quiet)

theorem toList_cases {α : Type*} (result : Poll α) : result.toList = [] ∨ ∃ a, result.toList = [a] := by
  cases result with
  | ready a => exact .inr ⟨a,rfl⟩
  | pending => exact .inl rfl

theorem forall_mem_ready {r : FrameResult} :
    (∀ a ∈ (Poll.ready r).toList, a = none) ↔ r = none := List.forall_mem_singleton

theorem forall_mem_pending : ∀ a ∈ (Poll.pending : Poll FrameResult).toList, a = none :=
  fun _ h => (List.not_mem_nil h).elim

theorem pollTrailers_quiet_iff (body : ServerRecvBody S) :
    (body.trailersDone = false → QuietTrailers body.stream) ↔
      ∀ a ∈ body.pollTrailers.1.toList, a = none := by
  unfold ServerRecvBody.pollTrailers QuietTrailers
  cases hd : body.trailersDone with
  | true => exact ⟨fun _ => forall_mem_ready.mpr rfl,nofun⟩
  | false =>
    rcases htrailers : RecvStream.pollRecvTrailers body.stream with ⟨answer,stream⟩
    rcases answer with (e | (_ | trailers)) | _
    · refine ⟨fun h => ?_,fun h => ?_⟩
      · cases h rfl _ rfl
      · cases forall_mem_ready.mp h
    · refine ⟨fun _ => forall_mem_ready.mpr rfl,fun _ _ answer ha => ?_⟩
      cases ha
      rfl
    · refine ⟨fun h => ?_,fun h => ?_⟩
      · cases h rfl _ rfl
      · cases forall_mem_ready.mp h
    · exact ⟨fun _ => forall_mem_pending,fun _ _ _ => nofun⟩

theorem ServerRecvBody.quiet_iff (body : ServerRecvBody S) :
    body.Quiet ↔ ∀ a ∈ body.pollFrame.1.toList, a = none := by
  unfold pollFrame
  cases hd : body.dataDone with
  | true =>
    refine Iff.trans ⟨fun h => h.trailers hd,fun h => ⟨fun _ => h,fun hf => ?_⟩⟩
      (pollTrailers_quiet_iff body)
    cases hd.symm.trans hf
  | false =>
    rcases hdata : RecvStream.pollRecvData body.stream with ⟨answer,stream⟩
    rcases answer with (e | (_ | data)) | _
    · refine ⟨fun h => ?_,fun h => ?_⟩
      · cases (h.data hd (.error e) (by rw [hdata])).1
      · cases forall_mem_ready.mp h
    · refine Iff.trans ⟨fun h => ?_,fun h => ⟨fun ht => ?_,fun _ answer ha => ?_⟩⟩
        (pollTrailers_quiet_iff { body with stream, dataDone := true })
      · have hquiet := (h.data hd (.ok none) (by rw [hdata])).2
        rw [hdata] at hquiet
        exact hquiet
      · cases hd.symm.trans ht
      · rw [hdata] at ha ⊢
        cases ha
        exact ⟨rfl,h⟩
    · refine ⟨fun h => ?_,fun h => ?_⟩
      · cases (h.data hd (.ok (some data)) (by rw [hdata])).1
      · cases forall_mem_ready.mp h
    · refine ⟨fun _ => forall_mem_pending,fun _ => ⟨fun ht => ?_,fun _ answer ha => ?_⟩⟩
      · cases hd.symm.trans ht
      · rw [hdata] at ha
        cases ha

theorem ClientRecvBody.quiet_iff (input : ℕ × Oneshot CoreError) (body : ClientRecvBody S) :
    body.Quiet input ↔ ∀ a ∈ (body.pollFrame input.1 input.2).1.toList, a = none := by
  obtain ⟨now,err⟩ := input
  unfold Quiet
  cases hc : body.isClosed with
  | true =>
    have hpoll : body.pollFrame now err = (.ready none,body) := if_pos hc
    rw [hpoll]
    exact ⟨fun _ => forall_mem_ready.mpr rfl,fun _ => .inl rfl⟩
  | false =>
    cases he : body.elapsed now with
    | true =>
      cases ht : body.trailersDone with
      | true =>
        have hpoll : (body.pollFrame now err).1 = .ready none := by
          simp only [pollFrame,hc,he,ht,if_true,Bool.false_eq_true,if_false]
        rw [hpoll]
        exact ⟨fun _ => forall_mem_ready.mpr rfl,fun _ => .inr (.inl ⟨rfl,rfl⟩)⟩
      | false =>
        have hpoll : (body.pollFrame now err).1 = .ready (some (.ok (.trailers deadlineTrailers))) := by
          simp only [pollFrame,hc,he,ht,if_true,Bool.false_eq_true,if_false]
        rw [hpoll]
        refine ⟨fun h => ?_,fun h => ?_⟩
        · rcases h with h | ⟨-,h⟩ | ⟨h,-⟩ <;> cases h
        · cases forall_mem_ready.mp h
    | false =>
      rcases body.pollFrame_cases now err with ⟨h,-⟩ | ⟨-,h,-⟩ | ⟨-,-,hrx,e,rfl,hpoll⟩ | ⟨-,-,hrx,rx,-,hpoll⟩
      · cases hc.symm.trans h
      · cases he.symm.trans h
      · rw [hpoll]
        refine ⟨fun h => ?_,fun h => ?_⟩
        · rcases h with h | ⟨h,-⟩ | ⟨-,h,-⟩
          · cases h
          · cases h
          · exact (h hrx e rfl).elim
        · cases forall_mem_ready.mp h
      · rw [hpoll]
        refine Iff.trans ⟨fun h => ?_,fun h => ?_⟩ body.toServerRecvBody.quiet_iff
        · rcases h with h | ⟨h,-⟩ | ⟨-,-,h⟩
          · cases h
          · cases h
          · exact h
        · exact .inr (.inr ⟨rfl,hrx,h⟩)

theorem ServerRecvBody.quiet_of_done {body : ServerRecvBody S} (hd : body.dataDone = true)
    (ht : body.trailersDone = true) : body.Quiet := by
  refine ⟨fun _ h => ?_,fun h => ?_⟩
  · cases ht.symm.trans h
  · cases hd.symm.trans h

/-- After an error that did not come with the trailers the stream has no more to give. -/
def ServerRecvBody.QuietAfterError (s : Polled (ServerRecvBody S) (Poll FrameResult))
    (l : PollLabel S Unit) : Prop :=
  l = .poll () → Erred s → s.value.trailersDone = false → s.value.Quiet

/-- After any result that ends the stream the forwarder reports nothing; after an error
that did not come with the trailers the deadline does not elapse either, and the stream
has no more to give. -/
def ClientRecvBody.QuietAfterError (s : Polled (ClientRecvBody S) (Poll FrameResult))
    (l : PollLabel S (ℕ × Oneshot CoreError)) : Prop :=
  ∀ now err, l = .poll (now,err) → s.value.isClosed = false →
    (Over IsData (s.log.flatMap Poll.toList) → s.value.elapsed now = false → s.value.errRx = true →
      ∀ e, err ≠ .sent e) ∧
    (Erred s → s.value.trailersDone = false →
      s.value.elapsed now = false ∧ s.value.toServerRecvBody.Quiet)

/-- What a poll does to the flags. Only an error of `poll_recv_data` ends the reading
and leaves them as they are. -/
theorem ServerRecvBody.pollFrame_flags (body : ServerRecvBody S) :
    (body.pollFrame.2.dataDone = body.dataDone ∧ body.pollFrame.2.trailersDone = body.trailersDone ∧
      ((∃ d, body.pollFrame.1 = .ready (some (.ok (.data d)))) ∨
        ∃ e, body.pollFrame.1 = .ready (some (.error e)))) ∨
    (body.pollFrame.1 = .pending ∧ (body.dataDone = true → body.pollFrame.2.dataDone = true) ∧
      body.pollFrame.2.trailersDone = body.trailersDone) ∨
    (body.pollFrame.2.dataDone = true ∧ body.pollFrame.2.trailersDone = true) := by
  have htrailers (body : ServerRecvBody S) (hd : body.dataDone = true) :
      (body.pollTrailers.1 = .pending ∧ body.pollTrailers.2.dataDone = true ∧
        body.pollTrailers.2.trailersDone = body.trailersDone) ∨
      (body.pollTrailers.2.dataDone = true ∧ body.pollTrailers.2.trailersDone = true) := by
    unfold pollTrailers
    cases ht : body.trailersDone with
    | true => exact .inr ⟨hd,ht⟩
    | false =>
      rcases RecvStream.pollRecvTrailers body.stream with ⟨(e | (_ | trailers)) | _,stream⟩
      · exact .inr ⟨hd,rfl⟩
      · exact .inr ⟨hd,rfl⟩
      · exact .inr ⟨hd,rfl⟩
      · exact .inl ⟨rfl,hd,rfl⟩
  unfold pollFrame
  cases hd : body.dataDone with
  | true =>
    rcases htrailers body hd with ⟨hp,hd',ht⟩ | h
    · exact .inr (.inl ⟨hp,fun _ => hd',ht⟩)
    · exact .inr (.inr h)
  | false =>
    rcases RecvStream.pollRecvData body.stream with ⟨(e | (_ | data)) | _,stream⟩
    · exact .inl ⟨rfl,rfl,.inr ⟨_,rfl⟩⟩
    · rcases htrailers { body with stream, dataDone := true } rfl with ⟨hp,hd',ht⟩ | h
      · exact .inr (.inl ⟨hp,fun _ => hd',ht⟩)
      · exact .inr (.inr h)
    · exact .inl ⟨rfl,rfl,.inl ⟨_,rfl⟩⟩
    · exact .inr (.inl ⟨rfl,fun h => (Bool.false_ne_true h).elim,rfl⟩)

theorem Settled.poll {β : Type*} {body : ServerRecvBody S} {s : Polled β (Poll FrameResult)}
    (h : Settled body s) (value : β) :
    Settled body.pollFrame.2 ⟨value,s.log ++ [body.pollFrame.1]⟩ := by
  have hkeep (he : Erred s) (r : Poll FrameResult) : Erred (⟨value,s.log ++ [r]⟩ : Polled β _) := by
    obtain ⟨e,he⟩ := he
    exact ⟨e,by rw [List.flatMap_append]; exact List.mem_append_left _ he⟩
  have hmem {a : FrameResult} {r : Poll FrameResult} (ha : a ∈ (s.log ++ [r]).flatMap Poll.toList) :
      a ∈ s.log.flatMap Poll.toList ∨ r = .ready a := by
    rw [List.flatMap_append,List.flatMap_singleton] at ha
    refine (List.mem_append.mp ha).imp_right fun ha => ?_
    cases r with
    | ready r => cases List.mem_singleton.mp ha; rfl
    | pending => cases ha
  have hsame (ht : body.pollFrame.2.trailersDone = body.trailersDone) {a : FrameResult}
      (ha : a ∈ s.log.flatMap Poll.toList) (hend : ¬ IsData a) :
      body.pollFrame.2.trailersDone = true ∨ Erred (⟨value,s.log ++ [body.pollFrame.1]⟩ : Polled β _) := by
    rw [ht]
    exact (h.ended ⟨a,ha,hend⟩).imp_right fun he => hkeep he _
  rcases body.pollFrame_flags with ⟨hd,ht,hr⟩ | ⟨hp,hd,ht⟩ | ⟨hd,ht⟩
  · refine ⟨fun ht' => hd.trans (h.done (ht.symm.trans ht')),fun ⟨a,ha,hend⟩ => ?_⟩
    rcases hmem ha with ha | ha
    · exact hsame ht ha hend
    · rcases hr with ⟨d,hr⟩ | ⟨e,hr⟩
      · cases ha.symm.trans hr
        exact (hend ⟨d,rfl⟩).elim
      · refine .inr ⟨e,?_⟩
        rw [hr,List.flatMap_append]
        exact List.mem_append_right _ (List.mem_singleton_self _)
  · refine ⟨fun ht' => hd (h.done (ht.symm.trans ht')),fun ⟨a,ha,hend⟩ => ?_⟩
    rcases hmem ha with ha | ha
    · exact hsame ht ha hend
    · cases hp.symm.trans ha
  · exact ⟨fun _ => hd,fun _ => .inl ht⟩

theorem step_settled {s t : Polled (ServerRecvBody S) (Poll FrameResult)} {l : PollLabel S Unit}
    (h : Settled s.value s) (hst : serverStep s l = some t) : Settled t.value t := by
  cases l with
  | event stream =>
    cases hst
    exact ⟨h.done,h.ended⟩
  | poll _ =>
    cases hst
    exact h.poll _

def ClientSettled (s : Polled (ClientRecvBody S) (Poll FrameResult)) : Prop :=
  s.value.isClosed = true ∨ Settled s.value.toServerRecvBody s

theorem step_clientSettled {s t : Polled (ClientRecvBody S) (Poll FrameResult)}
    {l : PollLabel S (ℕ × Oneshot CoreError)} (h : ClientSettled s) (hst : clientStep s l = some t) :
    ClientSettled t := by
  cases l with
  | event stream =>
    cases hst
    exact h.imp_right fun h => ⟨h.done,h.ended⟩
  | poll input =>
    obtain ⟨now,err⟩ := input
    cases hst
    change ClientSettled ⟨(s.value.pollFrame now err).2,s.log ++ [(s.value.pollFrame now err).1]⟩
    rcases s.value.pollFrame_cases now err with ⟨hc,hpoll⟩ | ⟨-,-,r,hpoll,-⟩ | ⟨hc,-,-,e,-,hpoll⟩ |
      ⟨hc,-,-,rx,-,hpoll⟩ <;> rw [hpoll]
    · exact .inl hc
    · exact .inl rfl
    · have hs := h.resolve_left (by rw [hc]; exact Bool.false_ne_true)
      refine .inr ⟨hs.done,fun _ => .inr ⟨e,?_⟩⟩
      rw [List.flatMap_append]
      exact List.mem_append_right _ (List.mem_singleton_self _)
    · exact .inr ((h.resolve_left (by rw [hc]; exact Bool.false_ne_true)).poll _)

/-- A settled body of the server stays silent by itself after anything but an error. -/
theorem Settled.quiet_iff {s : Polled (ServerRecvBody S) (Poll FrameResult)} (h : Settled s.value s)
    (l : PollLabel S Unit) :
    QuietPolls Poll.toList IsData (fun _ body => body.Quiet) s l ↔ ServerRecvBody.QuietAfterError s l := by
  constructor
  · rintro hq rfl ⟨e,he⟩ -
    refine hq () rfl ⟨_,he,?_⟩
    rintro ⟨d,hd⟩
    cases hd
  · rintro hq ⟨⟩ rfl hover
    cases ht : s.value.trailersDone with
    | true => exact ServerRecvBody.quiet_of_done (h.done ht) ht
    | false =>
      rcases h.ended hover with ht' | he
      · cases ht.symm.trans ht'
      · exact hq rfl he ht

theorem ClientSettled.quiet_iff {s : Polled (ClientRecvBody S) (Poll FrameResult)} (h : ClientSettled s)
    (l : PollLabel S (ℕ × Oneshot CoreError)) :
    QuietPolls Poll.toList IsData ClientRecvBody.Quiet s l ↔ ClientRecvBody.QuietAfterError s l := by
  constructor
  · rintro hq now err rfl hc
    have hover (he : Erred s) : Over IsData (s.log.flatMap Poll.toList) := by
      obtain ⟨e,he⟩ := he
      refine ⟨_,he,?_⟩
      rintro ⟨d,hd⟩
      cases hd
    refine ⟨fun ho hel => ?_,fun he ht => ?_⟩
    · rcases hq _ rfl ho with h' | ⟨h',-⟩ | ⟨-,herr,-⟩
      · cases hc.symm.trans h'
      · cases hel.symm.trans h'
      · exact herr
    · rcases hq _ rfl (hover he) with h' | ⟨-,h'⟩ | ⟨hel,-,hquiet⟩
      · cases hc.symm.trans h'
      · cases ht.symm.trans h'
      · exact ⟨hel,hquiet⟩
  · rintro hq ⟨now,err⟩ rfl hover
    cases hc : s.value.isClosed with
    | true => exact .inl hc
    | false =>
      have hs := h.resolve_left (by rw [hc]; exact Bool.false_ne_true)
      obtain ⟨herr,hmore⟩ := hq now err rfl hc
      cases ht : s.value.trailersDone with
      | true =>
        cases hel : s.value.elapsed now with
        | true => exact .inr (.inl ⟨hel,ht⟩)
        | false =>
          exact .inr (.inr ⟨hel,herr hover hel,ServerRecvBody.quiet_of_done (hs.done ht) ht⟩)
      | false =>
        rcases hs.ended hover with ht' | he
        · cases ht.symm.trans ht'
        · obtain ⟨hel,hquiet⟩ := hmore he ht
          exact .inr (.inr ⟨hel,herr hover hel,hquiet⟩)

/-- A body yields the shape of a fused stream exactly in the runs in which nothing more
comes after an error that leaves it open: one of `poll_recv_data`, or of the forwarder.
All its other exits close it. -/
theorem body_fused_iff (stream : S) :
    (∀ ls, Always serverStep FusedResults ⟨ServerRecvBody.new stream,[]⟩ ls ↔
      Meets serverStep ServerRecvBody.QuietAfterError ⟨ServerRecvBody.new stream,[]⟩ ls) ∧
    ∀ errRx abortHandle deadline ls,
      Always clientStep FusedResults ⟨ClientRecvBody.new stream errRx abortHandle deadline,[]⟩ ls ↔
        Meets clientStep ClientRecvBody.QuietAfterError
          ⟨ClientRecvBody.new stream errRx abortHandle deadline,[]⟩ ls := by
  constructor
  · intro ls
    refine (always_fused_iff _ _ _ _ _ _ toList_cases (fun _ body => body.quiet_iff) _ ls).trans ?_
    exact meets_congr (fun _ _ _ hs hst => step_settled hs hst) (fun _ l hs => hs.quiet_iff l)
      (settled_init stream _)
  · intro errRx abortHandle deadline ls
    refine (always_fused_iff _ _ _ _ _ _ toList_cases (fun input body => body.quiet_iff input) _ ls).trans ?_
    exact meets_congr (fun _ _ _ hs hst => step_clientSettled hs hst) (fun _ l hs => hs.quiet_iff l)
      (.inr (settled_init stream _))

end

/-- The connection is lost, and the consumer polls twice. -/
def lostPolls : List (PollLabel RecvHalf Unit) :=
  [.event ⟨[],some (.error "connection lost")⟩,.poll (),.poll ()]

/-- The forwarder fails while the response still arrives. -/
def failedUploadPolls : List (PollLabel RecvHalf (ℕ × Oneshot CoreError)) :=
  [.event ⟨[[1]],none⟩,.poll (0,.sent (.h3Stream "body error")),.poll (0,.closed)]

theorem lostPolls_results : ∃ s, exec serverStep ⟨.new RecvHalf.new,[]⟩ lostPolls = some s ∧
    s.log.flatMap Poll.toList =
      [some (.error (.h3Stream "connection lost")),some (.error (.h3Stream "connection lost"))] :=
  ⟨_,rfl,rfl⟩

theorem failedUploadPolls_results : ∃ s,
    exec clientStep ⟨.new RecvHalf.new true true none,[]⟩ failedUploadPolls = some s ∧
      s.log.flatMap Poll.toList = [some (.error (.h3Stream "body error")),some (.ok (.data [1]))] :=
  ⟨_,rfl,rfl⟩

theorem not_isData_error (e : CoreError) : ¬ IsData (some (.error e)) := by
  rintro ⟨data,h⟩
  cases h

/-- Neither body is fused: the server's yields an error twice, the client's data
after an error. -/
theorem body_not_fused :
    (¬ ∀ (stream : RecvHalf) (ls : List (PollLabel RecvHalf Unit)),
      Always serverStep FusedResults ⟨.new stream,[]⟩ ls) ∧
    ¬ ∀ (stream : RecvHalf) (errRx abortHandle : Bool) (deadline : Option ℕ)
      (ls : List (PollLabel RecvHalf (ℕ × Oneshot CoreError))),
      Always clientStep FusedResults ⟨.new stream errRx abortHandle deadline,[]⟩ ls := by
  have hends (e : CoreError) (r : FrameResult) (hr : r ≠ none) :
      ¬ Fused IsData none [some (.error e),r] := by
    intro h
    have herror : Fused IsData none [some (.error e)] :=
      (fused_concat fused_nil _).mpr fun ⟨_,hmem,_⟩ => (List.not_mem_nil hmem).elim
    exact hr ((fused_concat herror r).mp h ⟨_,List.mem_singleton_self _,not_isData_error e⟩)
  constructor
  · intro h
    obtain ⟨s,hs,hlog⟩ := lostPolls_results
    have hlast := (h .new lostPolls).last hs
    unfold FusedResults at hlast
    rw [hlog] at hlast
    exact hends _ _ (by rintro ⟨⟩) hlast
  · intro h
    obtain ⟨s,hs,hlog⟩ := failedUploadPolls_results
    have hlast := (h .new true true none failedUploadPolls).last hs
    unfold FusedResults at hlast
    rw [hlog] at hlast
    exact hends _ _ (by rintro ⟨⟩) hlast

end GrpcQuic
