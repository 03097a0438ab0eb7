import GrpcQuic.Exchange.RoundTripSafety

/-! # A remote call is a call of the service

A service that answers once it has read its whole request computes a function of
that request. Over a connection on which nothing fails, a call of the client gives
what this function gives: the transport leaves no trace in it.
-/
namespace GrpcQuic.RoundTrip
open Transition Server
variable {x : Setup} {s t : State} {u : Transfer ResponseLoop}

/-- A service as a function of the head, the data and the trailers of its request. -/
abbrev Service := RequestHead → Bytes → Option HeaderMap → ResponseHead × List Bytes × Ending

def readTrailers : List FrameResult → Option HeaderMap
  | [] => none
  | some (.ok (.trailers tr)) :: _ => some tr
  | _ :: rest => readTrailers rest

def endingTrailers : Ending → Option HeaderMap
  | .trailers tr => some tr
  | _ => none

def Service.reply (f : Service) (h : Handler) : ResponseHead × Body :=
  let (head,frames,ending) := f h.request (yieldedData h.read) (readTrailers h.read)
  (head,.new frames ending)

def Service.apply (f : Service) (x : Setup) : ResponseHead × List Bytes × Ending :=
  f x.call.h3Request x.frames.flatten (endingTrailers x.ending)

/-- Neither the request nor the answer has an empty frame in front of another one. -/
def Solid (f : Service) (x : Setup) : Prop := [] ∉ x.frames.dropLast ∧ [] ∉ (f.apply x).2.1.dropLast

/-- Nothing fails, is dropped or gets lost, no deadline elapses, and the service is
ready and answers with `f` of the request it has read to the end without an error. -/
def Calm (f : Service) (s : State) : Label → Prop
  | .client (.call (.responded (.error _))) => False
  | .client .timeout => False
  | .client .dropCall => False
  | .client .dropBody => False
  | .client (.forward m) => m.orderly = true
  | .client l => Undisturbed s (.client l)
  | .serve (.ready ok) => ok = true
  | .serve (.called answer) =>
    ∃ h, s.handler = some h ∧ none ∈ h.read ∧ (∀ e, some (.error e) ∉ h.read) ∧ answer = some (f.reply h)
  | .serve (.refused _) => False
  | .serve (.send m) => m.orderly = true
  | .serve .panic => False
  | .requestLost _ => False
  | .responseLost _ => False
  | _ => True

theorem readTrailers_dataFrames (ds : List Bytes) (rs : List FrameResult) :
    readTrailers (dataFrames ds ++ rs) = readTrailers rs := by
  induction ds with
  | nil => rfl
  | cons d ds ih => exact ih

theorem readTrailers_replicate (k : ℕ) : readTrailers (List.replicate k none) = none := by
  induction k with
  | zero => rfl
  | succ k ih => exact ih

/-- Read to the end, an orderly request gives its data and its trailers. -/
theorem shown_reading (ds : List Bytes) (ending : Ending) (k : ℕ) :
    yieldedData (dataFrames ds ++ ending.shown ++ List.replicate k none) = ds.flatten ∧
      readTrailers (dataFrames ds ++ ending.shown ++ List.replicate k none) = endingTrailers ending := by
  have hdata : yieldedData ending.shown = [] := by cases ending <;> rfl
  constructor
  · rw [yieldedData_append,yieldedData_append,yieldedData_dataFrames,hdata,yieldedData_replicate_none,
      List.append_nil,List.append_nil]
  · rw [List.append_assoc,readTrailers_dataFrames]
    cases ending with
    | clean => exact readTrailers_replicate k
    | trailers tr => rfl
    | error e => exact readTrailers_replicate k

theorem Calm.not_aborts {f : Service} {l : Rpc.Label} (hc : Calm f s (.client l)) :
    aborts s.client l = false := by
  cases l with
  | call e =>
    cases e with
    | responded r =>
      cases r with
      | ok head => rfl
      | error m => exact hc.elim
    | _ => rfl
  | poll =>
    simp only [aborts]
    split
    · rename_i c hb
      unfold ClientRecvBody.pollAborts
      rw [(hc rfl c hb).1,Bool.and_false,Bool.false_and]
    · rfl
  | dropBody => exact hc.elim
  | _ => rfl

/-- In a calm step all that the request half does is orderly. -/
theorem Calm.uploads {f : Service} {l : Label} (hc : Calm f s l) : ∀ m ∈ s.uploads l, m.orderly = true := by
  have hone {m : TransferLabel} (ho : m.orderly = true) : ∀ m' ∈ [m], m'.orderly = true := by
    intro m' hm
    cases List.mem_singleton.mp hm
    exact ho
  cases l with
  | client l =>
    by_cases hl : ∃ m, l = .forward m
    · obtain ⟨m,rfl⟩ := hl
      exact hone hc
    · have hu : s.uploads (.client l) = if aborts s.client l then [.send .abort] else [] := by
        cases l with
        | forward m => exact (hl ⟨m,rfl⟩).elim
        | _ => rfl
      rw [hu,hc.not_aborts]
      exact nofun
  | requestLost m => exact hc.elim
  | requestBytes n => exact hone rfl
  | requestEnd m => exact hone rfl
  | read => exact hone rfl
  | _ => exact nofun

structure CalmInv (f : Service) (x : Setup) (s : State) : Prop where
  inv : Inv x s
  request : RunsUpload x (fun m => m.orderly = true) s
  response : ∃ u, Shows x s u ∧ Exact x s u
  promises : Promises (answerBody s.answer) s.responder
  unanswered : ∀ hd, s.handler = some hd → hd.answer = none → responderOf hd.task = idle
  answer : ∀ a, s.answer = some a →
    a = ((f.apply x).1,.new (f.apply x).2.1 (f.apply x).2.2) ∧ [] ∉ x.frames.dropLast

/-- A request that has been read to its end in calm is the whole request. -/
theorem CalmInv.reply {f : Service} (h : CalmInv f x s) {hd : Handler} (hh : s.handler = some hd)
    (hn : none ∈ hd.read) (herr : ∀ e, some (.error e) ∉ hd.read) :
    f.reply hd = ((f.apply x).1,.new (f.apply x).2.1 (f.apply x).2.2) ∧ [] ∉ x.frames.dropLast := by
  obtain ⟨fw,hf⟩ :=
    Option.ne_none_iff_exists'.mp fun hn => nomatch hh.symm.trans (h.inv.opened.accepted hn)
  obtain ⟨ms,hms,hrun⟩ := h.request fw hf
  have hu : s.uploadOf fw = ⟨fw,hd.body,hd.read⟩ := by
    unfold State.uploadOf
    rw [hh]
  rw [hu] at hrun
  obtain ⟨ds,k,hy,hds⟩ := upload_shown hrun hms hn herr
  obtain ⟨hdata,htrailers⟩ := shown_reading ds x.ending k
  rw [← hy] at hdata htrailers
  refine ⟨?_,(upload_transferInv hrun).solid (upload_promises hrun hms).whole hn herr⟩
  simp only [Service.reply,Service.apply,h.inv.request hd hh,hdata,htrailers,hds]

theorem promises_fresh (head : ResponseHead) {body : Body} (h : body.ended = false) :
    Promises body (.respond head body) :=
  ⟨senderInv_respond head h,nofun,nofun⟩

/-- What a calm step does to the task keeps the promises of its wire. -/
theorem CalmInv.serve {f : Service} (h : CalmInv f x s) {m : RequestLabel} {hd hd' : Handler}
    (hh : s.handler = some hd) (hserve : hd.serve m = some hd') (hc : Calm f s (.serve m)) :
    Promises (answerBody hd'.answer) (responderOf hd'.task) ∧
      (hd'.answer = none → responderOf hd'.task = idle) ∧
      ∀ a, hd'.answer = some a →
        a = ((f.apply x).1,.new (f.apply x).2.1 (f.apply x).2.2) ∧ [] ∉ x.frames.dropLast := by
  have hP := h.promises
  have hA := h.answer
  simp only [State.answer,State.responder,hh,Option.bind_some] at hP hA
  cases ((h.inv.handler hd hh).serve hserve).2 with
  | same hr ha =>
    rw [hr,ha]
    exact ⟨hP,h.unanswered hd hh,hA⟩
  | moves m' hm hst hne ha =>
    rw [ha]
    refine ⟨?_,fun hn => (hne hn).elim,hA⟩
    rcases hm with rfl | rfl
    · exact hP.step hc hst
    · exact hc.elim
  | answers head body hl hb hi ha hr =>
    subst hl
    obtain ⟨hd₁,hh₁,hn,herr,hreply⟩ := hc
    cases hh.symm.trans hh₁
    have hr' := Option.some.inj hreply
    obtain ⟨happly,hsolid⟩ := h.reply hh hn herr
    rw [ha,hr]
    refine ⟨promises_fresh head hb,by simp,fun a he => ?_⟩
    cases he
    exact ⟨hr'.trans happly,hsolid⟩
  | ends hl hi ha hs ht =>
    rcases hl with ⟨ok,rfl⟩ | rfl
    · exact hc.elim
    · exact hc.elim

theorem step_calmInv {f : Service} (h : CalmInv f x s) {l : Label} (hc : Calm f s l)
    (hst : step x s l = some t) : CalmInv f x t := by
  have hI := step_inv h.inv hst
  have hR := h.request.step h.inv.opened hc.uploads hst
  have hU : Undisturbed s l := by
    rintro rfl
    exact hc rfl
  obtain ⟨u,hu,hE⟩ := h.response
  obtain ⟨u',hu',hE'⟩ := step_shows hu h.inv.opened h.inv.handler hst
  have hX : ∃ u, Shows x t u ∧ Exact x t u := ⟨u',hu',hE' hU hE⟩
  have hP := h.promises
  have hA := h.answer
  rcases handler_cases hst with hh | ⟨hn,hh⟩ | ⟨m,hd,hd',rfl,hs,hserve,hh⟩ | ⟨hd,body,read,hs,hh⟩ | ⟨n,hh⟩
  · have hr : t.responder = s.responder := by unfold State.responder; rw [hh]
    have ha : t.answer = s.answer := by unfold State.answer; rw [hh]
    refine ⟨hI,hR,hX,?_,?_,?_⟩
    · rw [hr,ha]
      exact hP
    · rw [hh]
      exact h.unanswered
    · rw [ha]
      exact hA
  · refine ⟨hI,hR,hX,?_,fun hd hhd _ => ?_,fun a ha => ?_⟩
    · simp only [State.answer,State.responder,hh,Option.bind_some]
      exact promises_respond ⟨500,[]⟩ [] .clean
    · cases hh.symm.trans hhd
      rfl
    · simp only [State.answer,hh,Option.bind_some] at ha
      cases ha
  · obtain ⟨hP',hn',hA'⟩ := h.serve hs hserve hc
    refine ⟨hI,hR,hX,?_,fun hd₁ hhd => ?_,fun a ha => ?_⟩
    · simp only [State.answer,State.responder,hh,Option.bind_some]
      exact hP'
    · cases hh.symm.trans hhd
      exact hn'
    · simp only [State.answer,hh,Option.bind_some] at ha
      exact hA' a ha
  · simp only [State.answer,State.responder,hs,Option.bind_some] at hP hA
    refine ⟨hI,hR,hX,?_,fun hd₁ hhd => ?_,fun a ha => ?_⟩
    · simp only [State.answer,State.responder,hh,Option.bind_some]
      exact hP
    · cases hh.symm.trans hhd
      exact h.unanswered hd hs
    · simp only [State.answer,hh,Option.bind_some] at ha
      exact hA a ha
  · cases hs : s.handler with
    | none =>
      rw [hs,Option.map_none] at hh
      refine ⟨hI,hR,hX,?_,fun hd hhd => ?_,fun a ha => ?_⟩
      · simp only [State.answer,State.responder,hh,Option.bind_none]
        exact promises_respond ⟨500,[]⟩ [] .clean
      · cases hh.symm.trans hhd
      · simp only [State.answer,hh,Option.bind_none] at ha
        cases ha
    | some hd =>
      rw [hs,Option.map_some] at hh
      simp only [State.answer,State.responder,hs,Option.bind_some] at hP hA
      refine ⟨hI,hR,hX,?_,fun hd₁ hhd hn => ?_,fun a ha => ?_⟩
      · simp only [State.answer,State.responder,hh,Option.bind_some,responderOf_pull]
        exact hP.pull n
      · cases hh.symm.trans hhd
        have hi := h.unanswered hd hs hn
        simp only [responderOf_pull,hi,idle,Sender.respond,Wire.new,pull_empty]
      · simp only [State.answer,hh,Option.bind_some] at ha
        exact hA a ha

end GrpcQuic.RoundTrip
