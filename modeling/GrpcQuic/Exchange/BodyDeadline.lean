import GrpcQuic.Exchange.BodyShape

/-! # The deadline of the client's body

Two runs of the client's body over the same events, one with a timer and one
without, and what the timer does when a poll finds it elapsed.
-/
namespace GrpcQuic
open Transition

/-- What a poll returned, and whether it had asked the stream for trailers. -/
structure PollRecord where
  result : Poll FrameResult
  askedTrailers : Bool

def PollRecord.isTrailers (record : PollRecord) : Bool :=
  match record.result with
  | .ready (some (.ok (.trailers _))) => true
  | _ => false

def PollRecord.concludes (record : PollRecord) : Bool :=
  match record.result with
  | .ready none => true
  | .ready (some (.ok (.trailers _))) => true
  | .ready (some (.error _)) => record.askedTrailers
  | _ => false

section
variable {S : Type*} [RecvStream S]

def ServerRecvBody.dataOver (body : ServerRecvBody S) : Bool :=
  body.dataDone || match (RecvStream.pollRecvData body.stream).1 with
    | .ready (.ok none) => true
    | _ => false

def ServerRecvBody.asksTrailers (body : ServerRecvBody S) : Bool := !body.trailersDone && body.dataOver

def ClientRecvBody.asksTrailers (body : ClientRecvBody S) (now : ℕ) (err : Oneshot CoreError) : Bool :=
  match body.isClosed || body.elapsed now, body.errRx, err with
  | true, _, _ => false
  | false, true, .sent _ => false
  | false, _, _ => body.toServerRecvBody.asksTrailers

def ClientRecvBody.record (body : ClientRecvBody S) (now : ℕ) (err : Oneshot CoreError) : PollRecord :=
  ⟨(body.pollFrame now err).1,body.asksTrailers now err⟩

def recordStep : Polled (ClientRecvBody S) PollRecord → PollLabel S (ℕ × Oneshot CoreError) →
    Option (Polled (ClientRecvBody S) PollRecord) :=
  Polled.step .setStream fun (now,err) body => (body.record now err,(body.pollFrame now err).2)

def ClientRecvBody.withDeadline (body : ClientRecvBody S) (deadline : Option ℕ) : ClientRecvBody S :=
  { body with deadline }

variable {body : ClientRecvBody S} {now deadline : ℕ} {dl : Option ℕ}

/-- A poll that finds no deadline elapsed does not look at it. -/
theorem pollFrame_withDeadline (err : Oneshot CoreError) (h : body.elapsed now = false)
    (h' : (body.withDeadline dl).elapsed now = false) :
    (body.withDeadline dl).pollFrame now err =
      ((body.pollFrame now err).1,(body.pollFrame now err).2.withDeadline dl) := by
  unfold ClientRecvBody.pollFrame
  rw [h,h']
  rcases body with ⟨⟨stream,dd,td⟩,ic,rx,ah,old⟩
  cases ic with
  | true => rfl
  | false =>
    cases rx with
    | false => rfl
    | true => cases err <;> rfl

theorem asksTrailers_withDeadline (err : Oneshot CoreError) (h : body.elapsed now = false)
    (h' : (body.withDeadline dl).elapsed now = false) :
    (body.withDeadline dl).asksTrailers now err = body.asksTrailers now err := by
  unfold ClientRecvBody.asksTrailers
  rw [h,h']
  rfl

theorem pollFrame_elapsed (err : Oneshot CoreError) (hc : body.isClosed = false) (he : body.elapsed now = true) :
    body.pollFrame now err =
      (.ready (if body.trailersDone then none else some (.ok (.trailers deadlineTrailers))),
        { body with isClosed := true, abortHandle := false, trailersDone := true }) := by
  rcases body with ⟨⟨stream,dd,td⟩,ic,rx,ah,old⟩
  cases hc
  unfold ClientRecvBody.pollFrame
  rw [he]
  cases td <;> rfl

/-- A closed body asks nobody, whatever the stream would answer. -/
theorem pollFrame_closed (now : ℕ) (err : Oneshot CoreError) (hc : body.isClosed = true) :
    body.pollFrame now err = (.ready none,body) :=
  if_pos hc

omit [RecvStream S] in
theorem elapsed_of_deadline (h : body.deadline = some deadline) :
    body.elapsed now = decide (deadline ≤ now) := by
  unfold ClientRecvBody.elapsed
  rw [h]

theorem pollTrailers_concludes (inner : ServerRecvBody S) :
    inner.pollTrailers.2.trailersDone =
      (inner.trailersDone || PollRecord.concludes ⟨inner.pollTrailers.1,!inner.trailersDone⟩) := by
  unfold ServerRecvBody.pollTrailers
  cases hd : inner.trailersDone with
  | true => exact hd
  | false =>
    rcases RecvStream.pollRecvTrailers inner.stream with ⟨answer,stream⟩
    rcases answer with (e | (_ | trailers)) | _
    all_goals rfl

/-- The flag of the trailers follows what the polls have yielded. -/
theorem ServerRecvBody.pollFrame_concludes (inner : ServerRecvBody S) :
    inner.pollFrame.2.trailersDone =
      (inner.trailersDone || PollRecord.concludes ⟨inner.pollFrame.1,inner.asksTrailers⟩) := by
  unfold pollFrame asksTrailers dataOver
  cases hd : inner.dataDone with
  | true =>
    rw [if_pos rfl,Bool.true_or,Bool.and_true]
    exact pollTrailers_concludes inner
  | false =>
    rcases RecvStream.pollRecvData inner.stream with ⟨answer,stream⟩
    rcases answer with (e | (_ | data)) | _
    · change inner.trailersDone = (inner.trailersDone || (!inner.trailersDone && false))
      rw [Bool.and_false,Bool.or_false]
    · refine (pollTrailers_concludes { inner with stream, dataDone := true }).trans ?_
      rw [Bool.false_or,Bool.and_true]
      rfl
    · exact (Bool.or_false _).symm
    · exact (Bool.or_false _).symm

theorem asksTrailers_stream (err : Oneshot CoreError) (hc : body.isClosed = false) (he : body.elapsed now = false)
    (herr : body.errRx = true → ∀ e, err ≠ .sent e) :
    body.asksTrailers now err = body.toServerRecvBody.asksTrailers := by
  unfold ClientRecvBody.asksTrailers
  rw [hc,he]
  cases hrx : body.errRx with
  | false => rfl
  | true =>
    cases err with
    | sent e => exact (herr hrx e rfl).elim
    | _ => rfl

theorem asksTrailers_error (hc : body.isClosed = false) (he : body.elapsed now = false)
    (hrx : body.errRx = true) (e : CoreError) : body.asksTrailers now (.sent e) = false := by
  unfold ClientRecvBody.asksTrailers
  rw [hc,he,hrx]
  rfl

/-- What a poll before the deadline changes, besides the reading of the stream. -/
theorem pollFrame_early (err : Oneshot CoreError) (hc : body.isClosed = false) (he : body.elapsed now = false) :
    (body.pollFrame now err).2.isClosed = false ∧
      (body.pollFrame now err).2.abortHandle = body.abortHandle ∧
      (body.pollFrame now err).2.deadline = body.deadline ∧
      (body.pollFrame now err).2.trailersDone =
        (body.trailersDone || (body.record now err).concludes) := by
  unfold ClientRecvBody.record
  rcases body.pollFrame_cases now err with ⟨h,-⟩ | ⟨-,h,-⟩ | ⟨-,-,hrx,e,rfl,hpoll⟩ | ⟨-,-,hrx,rx,-,hpoll⟩
  · cases hc.symm.trans h
  · cases he.symm.trans h
  · rw [hpoll,asksTrailers_error hc he hrx]
    exact ⟨hc,rfl,rfl,(Bool.or_false _).symm⟩
  · rw [hpoll,asksTrailers_stream err hc he hrx]
    exact ⟨hc,rfl,rfl,body.toServerRecvBody.pollFrame_concludes⟩

structure Early (abortHandle : Bool) (deadline : Option ℕ) (s : Polled (ClientRecvBody S) PollRecord) :
    Prop where
  isOpen : s.value.isClosed = false
  handle : s.value.abortHandle = abortHandle
  timer : s.value.deadline = deadline
  concluded : s.value.trailersDone = s.log.any PollRecord.concludes

def Before (deadline : ℕ) (l : PollLabel S (ℕ × Oneshot CoreError)) : Prop :=
  ∀ now err, l = .poll (now,err) → now < deadline

variable {s t s₀ : Polled (ClientRecvBody S) PollRecord} {ah : Bool}
  {l : PollLabel S (ℕ × Oneshot CoreError)}

omit [RecvStream S] in
theorem not_elapsed_none (h : body.deadline = none) : body.elapsed now = false := by
  unfold ClientRecvBody.elapsed
  rw [h]

omit [RecvStream S] in
theorem not_elapsed_before (h : body.deadline = some deadline) (hlt : now < deadline) :
    body.elapsed now = false := by
  rw [elapsed_of_deadline h]
  exact decide_eq_false (by omega)

theorem step_early (h : Early ah dl s) (he : ∀ now err, l = .poll (now,err) → s.value.elapsed now = false)
    (hst : recordStep s l = some t) : Early ah dl t := by
  cases l with
  | event stream =>
    cases hst
    exact ⟨h.isOpen,h.handle,h.timer,h.concluded⟩
  | poll input =>
    obtain ⟨now,err⟩ := input
    cases hst
    obtain ⟨hc,hah,hdl,htd⟩ := pollFrame_early err h.isOpen (he now err rfl)
    refine ⟨hc,hah.trans h.handle,hdl.trans h.timer,htd.trans ?_⟩
    rw [List.any_append,List.any_cons,List.any_nil,Bool.or_false,h.concluded]

/-- The two runs: the same records, and bodies that differ in the timer alone. -/
structure Agree (deadline : ℕ) (s s₀ : Polled (ClientRecvBody S) PollRecord) : Prop where
  timer : s₀.value.deadline = none
  value : s.value = s₀.value.withDeadline (some deadline)
  log : s.log = s₀.log

/-- The simulation step. -/
theorem step_agree (h : Agree deadline s s₀) (hl : Before deadline l) (hst : recordStep s l = some t) :
    ∃ t₀, recordStep s₀ l = some t₀ ∧ Agree deadline t t₀ := by
  cases l with
  | event stream =>
    cases hst
    refine ⟨_,rfl,h.timer,?_,h.log⟩
    change s.value.setStream stream = (s₀.value.setStream stream).withDeadline (some deadline)
    rw [h.value]
    rfl
  | poll input =>
    obtain ⟨now,err⟩ := input
    have hnone : s₀.value.elapsed now = false := not_elapsed_none h.timer
    have hsome : (s₀.value.withDeadline (some deadline)).elapsed now = false :=
      not_elapsed_before rfl (hl now err rfl)
    have hpoll := pollFrame_withDeadline err hnone hsome
    have hasks := asksTrailers_withDeadline err hnone hsome
    rw [← h.value] at hpoll hasks
    cases hst
    refine ⟨_,rfl,?_,?_,?_⟩
    · cases hc : s₀.value.isClosed with
      | true =>
        change (s₀.value.pollFrame now err).2.deadline = none
        rw [pollFrame_closed now err hc]
        exact h.timer
      | false => exact (pollFrame_early err hc hnone).2.2.1.trans h.timer
    · change (s.value.pollFrame now err).2 = _
      rw [hpoll]
    · change s.log ++ [s.value.record now err] = s₀.log ++ [s₀.value.record now err]
      unfold ClientRecvBody.record
      rw [hpoll,hasks,h.log]

structure Counted (s : Polled (ClientRecvBody S) PollRecord) : Prop where
  closed : s.value.isClosed = true → s.value.trailersDone = true
  count : s.log.countP PollRecord.isTrailers ≤ if s.value.trailersDone then 1 else 0

omit [RecvStream S] in
theorem PollRecord.concludes_of_isTrailers {record : PollRecord} (h : record.isTrailers = true) :
    record.concludes = true := by
  rcases record with ⟨((_ | _ | (_ | _)) | _),asked⟩
  all_goals first | rfl | cases h

/-- With the flag of the trailers set, no trailers come from the stream. -/
theorem ServerRecvBody.pollFrame_isTrailers (inner : ServerRecvBody S) (asked : Bool)
    (h : PollRecord.isTrailers ⟨inner.pollFrame.1,asked⟩ = true) : inner.trailersDone = false := by
  refine Bool.eq_false_iff.mpr fun hd => ?_
  unfold pollFrame at h
  cases hdata : inner.dataDone with
  | true =>
    rw [hdata,if_pos rfl,pollTrailers,if_pos hd] at h
    cases h
  | false =>
    rw [hdata,if_neg Bool.false_ne_true] at h
    rcases hanswer : RecvStream.pollRecvData inner.stream with ⟨answer,stream⟩
    rw [hanswer] at h
    rcases answer with (e | (_ | data)) | _
    · cases h
    · dsimp only at h
      rw [pollTrailers,if_pos hd] at h
      cases h
    · cases h
    · cases h

theorem pollFrame_isTrailers (err : Oneshot CoreError) (hc : body.isClosed = false)
    (he : body.elapsed now = false) (h : (body.record now err).isTrailers = true) :
    body.trailersDone = false := by
  unfold ClientRecvBody.record at h
  rcases body.pollFrame_cases now err with ⟨h',-⟩ | ⟨-,h',-⟩ | ⟨-,-,-,e,rfl,hpoll⟩ | ⟨-,-,-,rx,-,hpoll⟩
  · cases hc.symm.trans h'
  · cases he.symm.trans h'
  · rw [hpoll] at h
    cases h
  · rw [hpoll] at h
    exact body.toServerRecvBody.pollFrame_isTrailers _ h

theorem step_counted (h : Counted s) (hst : recordStep s l = some t) : Counted t := by
  cases l with
  | event stream =>
    cases hst
    exact ⟨h.closed,h.count⟩
  | poll input =>
    obtain ⟨now,err⟩ := input
    have hlog : t.log.countP PollRecord.isTrailers = s.log.countP PollRecord.isTrailers +
        if (s.value.record now err).isTrailers then 1 else 0 := by
      cases hst
      rw [List.countP_append,List.countP_singleton]
    have hvalue : t.value = (s.value.pollFrame now err).2 := by
      cases hst
      rfl
    have hcount := h.count
    cases hc : s.value.isClosed with
    | true =>
      have hpoll := pollFrame_closed now err hc
      have hno : (s.value.record now err).isTrailers = false := by
        unfold ClientRecvBody.record
        rw [hpoll]
        rfl
      rw [hno] at hlog
      rw [hpoll] at hvalue
      exact ⟨fun _ => hvalue ▸ h.closed hc,by rw [hlog,hvalue]; exact hcount⟩
    | false =>
      cases he : s.value.elapsed now with
      | true =>
        have hpoll := pollFrame_elapsed err hc he
        rw [hpoll] at hvalue
        refine ⟨fun _ => by rw [hvalue],?_⟩
        rw [hlog,hvalue]
        unfold ClientRecvBody.record
        rw [hpoll]
        cases hd : s.value.trailersDone with
        | true =>
          rw [hd] at hcount
          exact hcount
        | false =>
          rw [hd] at hcount
          exact Nat.add_le_add_right hcount 1
      | false =>
        obtain ⟨hopen,-,-,htd⟩ := pollFrame_early err hc he
        rw [← hvalue] at hopen htd
        refine ⟨fun hcl => (Bool.false_ne_true (hopen.symm.trans hcl)).elim,?_⟩
        rw [hlog,htd]
        cases hr : (s.value.record now err).isTrailers with
        | true =>
          rw [pollFrame_isTrailers err hc he hr] at hcount ⊢
          rw [PollRecord.concludes_of_isTrailers hr]
          exact Nat.add_le_add_right hcount 1
        | false =>
          refine hcount.trans ?_
          cases s.value.trailersDone with
          | true => exact le_rfl
          | false => exact Nat.zero_le _

theorem step_isClosed (h : s.value.isClosed = true) (hst : recordStep s l = some t) :
    t.value.isClosed = true := by
  cases l with
  | event stream =>
    cases hst
    exact h
  | poll input =>
    obtain ⟨now,err⟩ := input
    cases hst
    change (s.value.pollFrame now err).2.isClosed = true
    rw [pollFrame_closed now err h]
    exact h

theorem deadlineTrailers_status : deadlineTrailers.get "grpc-status" = some "4" := by decide

/-- Before its deadline a body behaves as one without; the first poll at the
deadline aborts the forwarder and yields the status unless the response has been
concluded; then the body asks nobody any more. Trailers are yielded at most once. -/
theorem body_deadline_exact (stream : S) (errRx abortHandle : Bool) (deadline : ℕ)
    {ls : List (PollLabel S (ℕ × Oneshot CoreError))}
    (h : exec recordStep ⟨.new stream errRx abortHandle (some deadline),[]⟩ ls = some s) :
    ((∀ l ∈ ls, Before deadline l) →
      (∃ s₀, exec recordStep ⟨.new stream errRx abortHandle none,[]⟩ ls = some s₀ ∧ s₀.log = s.log) ∧
      ∀ now err, deadline ≤ now →
        s.value.pollAborts now = abortHandle ∧
        (s.value.pollFrame now err).1 = .ready (if s.log.any PollRecord.concludes then none
          else some (.ok (.trailers deadlineTrailers))) ∧
        ∀ t ms u, recordStep s (.poll (now,err)) = some t → exec recordStep t ms = some u →
          ∀ (answers : RecvStream S) (now' : ℕ) (err' : Oneshot CoreError),
            u.value.pollAborts now' = false ∧
              @ClientRecvBody.pollFrame S answers u.value now' err' = (.ready none,u.value)) ∧
    deadlineTrailers.get "grpc-status" = some "4" ∧
    s.log.countP PollRecord.isTrailers ≤ 1 := by
  refine ⟨fun hbefore => ?_,deadlineTrailers_status,?_⟩
  · have hearly : Early abortHandle (some deadline) s :=
      exec_invariant_of_labels (fun u l v hu hl hst => step_early hu
        (fun now err heq => not_elapsed_before hu.timer (hl now err heq)) hst)
        ⟨rfl,rfl,rfl,rfl⟩ hbefore h
    constructor
    · have hagree : Agree deadline
          ⟨.new stream errRx abortHandle (some deadline),[]⟩ ⟨.new stream errRx abortHandle none,[]⟩ :=
        ⟨rfl,rfl,rfl⟩
      have hsim : ∀ (u u₀ : Polled (ClientRecvBody S) PollRecord)
          (l : PollLabel S (ℕ × Oneshot CoreError)) (v : Polled (ClientRecvBody S) PollRecord),
          Agree deadline u u₀ → Before deadline l → recordStep u l = some v →
            ∃ v₀, recordStep u₀ l = some v₀ ∧ Agree deadline v v₀ :=
        fun _ _ _ _ hu hl hst => step_agree hu hl hst
      obtain ⟨s₀,hs₀,hlast⟩ := exec_lockstep hsim hagree hbefore h
      exact ⟨s₀,hs₀,hlast.log.symm⟩
    · intro now err hnow
      have he : s.value.elapsed now = true := by
        rw [elapsed_of_deadline hearly.timer]
        exact decide_eq_true hnow
      have hpoll := pollFrame_elapsed err hearly.isOpen he
      refine ⟨?_,?_,fun t ms u ht hu => ?_⟩
      · unfold ClientRecvBody.pollAborts
        rw [hearly.isOpen,he,hearly.handle]
        rfl
      · rw [hpoll,hearly.concluded]
      · have hclosed : t.value.isClosed = true := by
          cases ht
          change (s.value.pollFrame now err).2.isClosed = true
          rw [hpoll]
        have hlater := exec_invariant (I := fun v => v.value.isClosed = true)
          (fun _ _ _ hv hst => step_isClosed hv hst) hclosed hu
        intro answers now' err'
        refine ⟨?_,if_pos hlater⟩
        unfold ClientRecvBody.pollAborts
        rw [hlater]
        rfl
  · have hcounted : Counted s :=
      exec_invariant (fun _ _ _ hu hst => step_counted hu hst)
        ⟨fun hcl => (Bool.false_ne_true hcl).elim,Nat.zero_le _⟩ h
    refine hcounted.count.trans ?_
    split <;> omega

end

/-- One chunk arrives, and then nothing more until the deadline. -/
def slowResponse : List (PollLabel RecvHalf (ℕ × Oneshot CoreError)) :=
  [.event ⟨[[1]],none⟩,.poll (0,.empty),.poll (3,.empty)]

theorem slowResponse_waits : ∃ s,
    exec recordStep ⟨.new RecvHalf.new true true (some 5),[]⟩ slowResponse = some s ∧
      s.log.any PollRecord.concludes = false := ⟨_,rfl,rfl⟩

theorem slowResponse_before : ∀ l ∈ slowResponse, Before 5 l := by
  intro l hl now err he
  subst he
  simp only [slowResponse,List.mem_cons,reduceCtorEq,PollLabel.poll.injEq,Prod.mk.injEq,
    List.not_mem_nil,or_false,false_or] at hl
  omega

theorem body_deadline_exact_slowResponse : ∃ s s₀,
    exec recordStep ⟨.new RecvHalf.new true true (some 5),[]⟩ slowResponse = some s ∧
      exec recordStep ⟨.new RecvHalf.new true true none,[]⟩ slowResponse = some s₀ ∧ s₀.log = s.log ∧
      s.value.pollAborts 5 = true ∧
      (s.value.pollFrame 5 .empty).1 = .ready (some (.ok (.trailers deadlineTrailers))) := by
  obtain ⟨s,hs,hopen⟩ := slowResponse_waits
  obtain ⟨⟨s₀,hs₀,hlog⟩,hdeadline⟩ :=
    (body_deadline_exact RecvHalf.new true true 5 hs).1 slowResponse_before
  obtain ⟨haborts,hresult,-⟩ := hdeadline 5 .empty le_rfl
  rw [hopen] at hresult
  exact ⟨s,s₀,hs,hs₀,hlog,haborts,hresult⟩

end GrpcQuic
