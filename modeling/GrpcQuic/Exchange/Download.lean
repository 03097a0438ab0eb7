import GrpcQuic.Exchange.TransferEnds

/-! # The response half of a call

The response loop of `handle_request` sends the response body to the
`ClientRecvBody` of the call. Besides the stream that body listens to a deadline
and to the error channel of the request forwarder.
-/
namespace GrpcQuic
open Transition

structure Download where
  sender : Sender ResponseLoop
  client : ClientRecvBody RecvHalf
  err : Oneshot CoreError
  now : ℕ
  yielded : List FrameResult

inductive DownloadLabel where
  | send (l : SendLabel)
  | deliver (n : ℕ)
  | deliverEnd (message : String)
  | lose (message : String)
  | forwarderFails (e : CoreError)
  | forwarderEnds
  | tick (n : ℕ)
  | recv

def Download.setHalf (s : Download) (half : RecvHalf) : Download :=
  { s with client := { s.client with stream := half } }

def Download.step (s : Download) : DownloadLabel → Option Download
  | .send l => (s.sender.step responseLoop l).map fun sender => { s with sender }
  | .deliver n =>
    (s.sender.wire.deliver s.client.stream n).map fun (wire,half) =>
      { s.setHalf half with sender := { s.sender with wire } }
  | .deliverEnd message => (s.sender.wire.deliverEnd s.client.stream message).map s.setHalf
  | .lose message => (s.client.stream.lose message).map s.setHalf
  | .forwarderFails e => some { s with err := s.err.send e }
  | .forwarderEnds => some { s with err := s.err.dropSender }
  | .tick n => some { s with now := s.now + n }
  | .recv =>
    match s.client.pollFrame s.now s.err with
    | (.ready result,client) => some { s with client, yielded := s.yielded ++ [result] }
    | (.pending,client) => some { s with client }

def download (head : ResponseHead) (frames : List Bytes) (ending : Ending) (deadline : Option ℕ) :
    Download where
  sender := .respond head (.new frames ending)
  client := .new .new true true deadline
  err := .empty
  now := 0
  yielded := []

/-- The reading of the stream that a client's reading is made of: everything but
what the deadline and the error channel put in. -/
structure Refines (s : Download) (u : Transfer ResponseLoop) : Prop where
  sender : u.sender = s.sender
  stream : u.body.stream = s.client.stream
  body : s.client.isClosed = false → u.body = s.client.toServerRecvBody
  data : yieldedData s.yielded = yieldedData u.yielded

def Undisturbed (s : Download) (l : DownloadLabel) : Prop :=
  l = .recv → s.client.elapsed s.now = false ∧ ∀ e, s.client.errRx = true → s.err ≠ .sent e

def Exact (s : Download) (u : Transfer ResponseLoop) : Prop :=
  u.yielded = s.yielded ∧ s.client.isClosed = false

def Plain (results : List FrameResult) : Prop := ∀ r ∈ results, r = none ∨ ∃ d, r = some (.ok (.data d))

def Mirrors (s : Download) (u : Transfer ResponseLoop) : Prop :=
  Plain s.yielded → u.yielded = s.yielded ∧
    (s.client.isClosed = true → u.body.dataDone = true ∧ u.body.trailersDone = true)

def DownloadLabel.orderly : DownloadLabel → Bool
  | send l => l.orderly
  | lose _ => false
  | _ => true

variable {s t : Download} {u : Transfer ResponseLoop} {b : Body}

theorem Plain.front {rs qs : List FrameResult} (h : Plain (rs ++ qs)) : Plain rs :=
  fun r hr => h r (List.mem_append_left qs hr)

theorem Plain.last {rs : List FrameResult} {r : FrameResult} (h : Plain (rs ++ [r])) :
    r = none ∨ ∃ d, r = some (.ok (.data d)) :=
  h r (List.mem_append_right rs (List.mem_singleton_self r))

/-- Each step of the exchange is a step of the stream or leaves the stream alone. -/
theorem step_refines (hI : TransferInv b u) (hR : Refines s u) {l : DownloadLabel} (hst : s.step l = some t) :
    ∃ ms u', exec (Transfer.step responseLoop) u ms = some u' ∧
      (l.orderly = true → ∀ m ∈ ms, m.orderly = true) ∧ Refines t u' ∧
      (Undisturbed s l → Exact s u → Exact t u') ∧ (Mirrors s u → Mirrors t u') := by
  obtain ⟨hs,hstr,hb,hd⟩ := hR
  have hone {m : TransferLabel} (hl : l.orderly = true → m.orderly = true) (h : l.orderly = true) :
      ∀ m' ∈ [m], m'.orderly = true := by
    intro m' hm
    rw [List.mem_singleton.mp hm]
    exact hl h
  have hnone : l.orderly = true → ∀ m ∈ ([] : List TransferLabel), m.orderly = true :=
    fun _ m hm => (List.not_mem_nil hm).elim
  have hhalf {half : RecvHalf} (hb : s.client.isClosed = false → u.body = s.client.toServerRecvBody) :
      (s.setHalf half).client.isClosed = false →
        (u.setHalf half).body = (s.setHalf half).client.toServerRecvBody := by
    intro hc
    have hu := hb hc
    simp only [Transfer.setHalf,Download.setHalf,hu]
  cases l with
  | send l =>
    obtain ⟨sender,hsend,rfl⟩ := Option.map_eq_some_iff.mp hst
    refine ⟨[.send l],{ u with sender },?_,hone fun h => h,⟨rfl,hstr,hb,hd⟩,fun _ hE => hE,fun hM => hM⟩
    simp only [exec_cons,exec_nil,Transfer.step,hs,hsend,Option.map_some,Option.bind_some]
  | deliver n =>
    obtain ⟨⟨wire,half⟩,hdel,rfl⟩ := Option.map_eq_some_iff.mp hst
    refine ⟨[.deliver n],{ u.setHalf half with sender := { s.sender with wire } },?_,hone fun h => h,
      ⟨rfl,rfl,hhalf hb,hd⟩,fun _ hE => hE,fun hM => hM⟩
    simp only [exec_cons,exec_nil,Transfer.step,hs,hstr,hdel,Option.map_some,Option.bind_some]
  | deliverEnd m =>
    obtain ⟨half,hdel,rfl⟩ := Option.map_eq_some_iff.mp hst
    refine ⟨[.deliverEnd m],u.setHalf half,?_,hone fun h => h,⟨hs,rfl,hhalf hb,hd⟩,fun _ hE => hE,fun hM => hM⟩
    simp only [exec_cons,exec_nil,Transfer.step,hs,hstr,hdel,Option.map_some,Option.bind_some]
  | lose m =>
    obtain ⟨half,hl,rfl⟩ := Option.map_eq_some_iff.mp hst
    refine ⟨[.lose m],u.setHalf half,?_,hone fun h => h,⟨hs,rfl,hhalf hb,hd⟩,fun _ hE => hE,fun hM => hM⟩
    simp only [exec_cons,exec_nil,Transfer.step,hstr,hl,Option.map_some,Option.bind_some]
  | forwarderFails e => cases hst; exact ⟨[],u,rfl,hnone,⟨hs,hstr,hb,hd⟩,fun _ hE => hE,fun hM => hM⟩
  | forwarderEnds => cases hst; exact ⟨[],u,rfl,hnone,⟨hs,hstr,hb,hd⟩,fun _ hE => hE,fun hM => hM⟩
  | tick n => cases hst; exact ⟨[],u,rfl,hnone,⟨hs,hstr,hb,hd⟩,fun _ hE => hE,fun hM => hM⟩
  | recv =>
    have hnodata {r : FrameResult} (hr : FrameResult.data r = []) :
        yieldedData (s.yielded ++ [r]) = yieldedData u.yielded := by
      rw [yieldedData_append,yieldedData_singleton,hd,hr,List.append_nil]
    -- Where the body yields the end without asking the stream, the stream would yield it as well.
    have hagain (hdone : u.body.dataDone = true ∧ u.body.trailersDone = true) :
        exec (Transfer.step responseLoop) u [.recv] = some { u with yielded := u.yielded ++ [none] } := by
      rw [exec_cons,recv_again hdone.1 hdone.2,Option.bind_some,exec_nil]
    have hends (client : ClientRecvBody RecvHalf) (hcl : client.isClosed = true)
        (hstr' : u.body.stream = client.stream) (hdone : u.body.dataDone = true ∧ u.body.trailersDone = true) :
        Refines { s with client, yielded := s.yielded ++ [none] } { u with yielded := u.yielded ++ [none] } ∧
          (Mirrors s u → Mirrors { s with client, yielded := s.yielded ++ [none] }
            { u with yielded := u.yielded ++ [none] }) := by
      refine ⟨⟨hs,hstr',fun hn => ?_,?_⟩,fun hM hp => ⟨?_,fun _ => hdone⟩⟩
      · cases hn.symm.trans hcl
      · rw [yieldedData_append,yieldedData_append,hd]
      · rw [(hM hp.front).1]
    simp only [Download.step] at hst
    rcases s.client.pollFrame_cases s.now s.err with ⟨hc,hp⟩ | ⟨hc,he,r,hp,hr⟩ | ⟨hc,-,hrx,e,he,hp⟩ |
      ⟨hc,-,-,rx,-,hp⟩
    · rw [hp] at hst
      cases hst
      by_cases hdone : u.body.dataDone = true ∧ u.body.trailersDone = true
      · obtain ⟨hR',hM'⟩ := hends s.client hc hstr hdone
        exact ⟨[.recv],_,hagain hdone,hone fun h => h,hR',
          fun _ hE => (Bool.false_ne_true (hE.2.symm.trans hc)).elim,hM'⟩
      · refine ⟨[],u,rfl,hnone,⟨hs,hstr,hb,hnodata rfl⟩,fun _ hE => (Bool.false_ne_true (hE.2.symm.trans hc)).elim,
          fun hM hplain => ?_⟩
        exact (hdone ((hM hplain.front).2 hc)).elim
    · rw [hp] at hst
      cases hst
      have hU {p : Prop} (hU : Undisturbed s .recv) : p := (Bool.false_ne_true ((hU rfl).1.symm.trans he)).elim
      rcases hr with ⟨htd,rfl⟩ | rfl
      · have hdone : u.body.dataDone = true ∧ u.body.trailersDone = true := by
          have htd' : u.body.trailersDone = true := by rw [hb hc]; exact htd
          refine ⟨(Bool.not_eq_false _).mp fun hf => ?_,htd'⟩
          cases (hI.reading.undone hf).1.symm.trans htd'
        obtain ⟨hR',hM'⟩ := hends { s.client with
          isClosed := true, abortHandle := false, trailersDone := true } rfl hstr hdone
        exact ⟨[.recv],_,hagain hdone,hone fun h => h,hR',fun hu => hU hu,hM'⟩
      · refine ⟨[],u,rfl,hnone,⟨hs,hstr,fun hn => (Bool.false_ne_true hn.symm).elim,hnodata rfl⟩,fun hu => hU hu,
          fun _ hplain => ?_⟩
        rcases hplain.last with h | ⟨d,h⟩ <;> cases h
    · rw [hp] at hst
      cases hst
      refine ⟨[],u,rfl,hnone,⟨hs,hstr,hb,hnodata rfl⟩,fun hU _ => ((hU rfl).2 e hrx he).elim,fun _ hplain => ?_⟩
      rcases hplain.last with h | ⟨d,h⟩ <;> cases h
    · rw [hp] at hst
      have hu := hb hc
      refine ⟨[.recv],?_⟩
      simp only [exec_cons,exec_nil,Transfer.step,hu]
      cases hres : s.client.toServerRecvBody.pollFrame with
      | mk r body =>
        rw [hres] at hst
        cases r with
        | ready r =>
          cases hst
          refine ⟨_,rfl,hone fun h => h,⟨hs,rfl,fun _ => rfl,?_⟩,fun _ hE => ⟨?_,hE.2⟩,
            fun hM hplain => ⟨?_,fun hcl => (Bool.false_ne_true (hc.symm.trans hcl)).elim⟩⟩
          · rw [yieldedData_append,yieldedData_append,hd]
          · rw [hE.1]
          · rw [(hM hplain.front).1]
        | pending =>
          cases hst
          exact ⟨_,rfl,hone fun h => h,⟨hs,rfl,fun _ => rfl,hd⟩,fun _ hE => hE,
            fun hM hplain => ⟨(hM hplain).1,fun hcl => (Bool.false_ne_true (hc.symm.trans hcl)).elim⟩⟩

theorem promises_respond (head : ResponseHead) (frames : List Bytes) (ending : Ending) :
    Promises (.new frames ending) (.respond head (.new frames ending)) :=
  ⟨⟨⟨rfl,rfl,nofun,List.nil_prefix,nofun⟩,fun _ => rfl,rfl,rfl⟩,nofun,nofun⟩

variable {head : ResponseHead} {frames : List Bytes} {ending : Ending} {deadline : Option ℕ}
  {ls : List DownloadLabel}

theorem refines_download : Refines (download head frames ending deadline)
    (Transfer.init (.respond head (.new frames ending))) :=
  ⟨rfl,rfl,fun _ => rfl,rfl⟩

theorem transferInv_respond : TransferInv (.new frames ending)
    (Transfer.init (.respond head (.new frames ending))) :=
  .init (promises_respond head frames ending).inv rfl

theorem smooth_respond : Smooth (.new frames ending) (Transfer.init (.respond head (.new frames ending))) :=
  ⟨transferInv_respond,⟨(promises_respond head frames ending).inv,⟨rfl,by rintro rest ⟨⟩⟩,by rintro ⟨⟩⟩,
    by rintro m ⟨⟩⟩

/-- Every run of the exchange reads some run of the stream. A plain reading is that of the
stream, and a response body that has ended has left a whole wire if it closed it. -/
theorem download_refines (h : exec Download.step (download head frames ending deadline) ls = some s) :
    ∃ u, TransferInv (.new frames ending) u ∧ Refines s u ∧ Mirrors s u ∧
      (s.sender.body.ended = true → EndInv (.new frames ending) s.sender) := by
  obtain ⟨-,u,-,hI,hR,hM,hE⟩ := exec_simulation (C := fun _ _ => True)
    (R := fun s u => TransferInv (.new frames ending) u ∧ Refines s u ∧ Mirrors s u ∧
      (u.sender.body.ended = true → EndInv (.new frames ending) u.sender)) (fun s u l s' hR _ hst => by
    obtain ⟨hI,hR,hM,hE⟩ := hR
    obtain ⟨ms,u',hms,-,hR',-,hM'⟩ := step_refines hI hR hst
    obtain ⟨hI',hE'⟩ := exec_invariant (I := fun u : Transfer ResponseLoop => TransferInv (.new frames ending) u ∧
      (u.sender.body.ended = true → EndInv (.new frames ending) u.sender)) (fun u l v hu hst => by
        refine ⟨step_transferInv hu.1 hst,fun he => ?_⟩
        rcases Transfer.step_sender hst with ⟨m,sender,-,hs,rfl⟩ | ⟨-,hv | ⟨n,hv⟩⟩
        · exact step_endInv_of_ended hu.1.sender hu.2 hs he
        · rw [hv] at he ⊢
          exact hu.2 he
        · rw [hv] at he ⊢
          exact hu.2 he) ⟨hI,hE⟩ hms
    exact ⟨ms,u',hms,hI',hR',hM' hM,hE'⟩)
    ⟨transferInv_respond,refines_download,fun _ => ⟨rfl,nofun⟩,nofun⟩ meets_true h
  exact ⟨u,hI,hR,hM,by rw [← hR.sender]; exact hE⟩

theorem download_exact (h : exec Download.step (download head frames ending deadline) ls = some s)
    (hU : Meets Download.step Undisturbed (download head frames ending deadline) ls)
    (hord : ∀ l ∈ ls, l.orderly = true) :
    ∃ u, Smooth (.new frames ending) u ∧ Promises (.new frames ending) u.sender ∧ u.sender = s.sender ∧
      u.yielded = s.yielded := by
  obtain ⟨-,u,-,hS,hP,hR,hE⟩ := exec_simulation
    (R := fun s u => Smooth (.new frames ending) u ∧ Promises (.new frames ending) u.sender ∧ Refines s u ∧ Exact s u)
    (fun s u l s' hR hC hst => by
      obtain ⟨hS,hP,hR,hE⟩ := hR
      obtain ⟨ms,u',hms,hord,hR',hE',-⟩ := step_refines hS.inv hR hst
      exact ⟨ms,u',hms,exec_invariant_of_labels (fun _ _ _ hu hl hst => step_smooth hu hl hst) hS (hord hC.2) hms,
        transfer_promises hP (hord hC.2) hms,hR',hE' hC.1 hE⟩)
    ⟨smooth_respond,promises_respond head frames ending,refines_download,rfl,rfl⟩ (hU.and_labels hord) h
  exact ⟨u,hS,hP,hR.sender,hE.1⟩

/-! A client with no deadline and a silent forwarder. -/

def Transfer.alone (u : Transfer ResponseLoop) : Download where
  sender := u.sender
  client := { u.body with isClosed := false, errRx := true, abortHandle := true, deadline := none }
  err := .empty
  now := 0
  yielded := u.yielded

def TransferLabel.alone : TransferLabel → DownloadLabel
  | send l => .send l
  | deliver n => .deliver n
  | deliverEnd m => .deliverEnd m
  | lose m => .lose m
  | recv => .recv

theorem step_alone {u v : Transfer ResponseLoop} {l : TransferLabel}
    (h : u.step responseLoop l = some v) : u.alone.step l.alone = some v.alone := by
  cases l with
  | send l =>
    obtain ⟨sender,hs,rfl⟩ := Option.map_eq_some_iff.mp h
    exact Option.map_eq_some_iff.mpr ⟨_,hs,rfl⟩
  | deliver n =>
    obtain ⟨wh,hd,rfl⟩ := Option.map_eq_some_iff.mp h
    exact Option.map_eq_some_iff.mpr ⟨_,hd,rfl⟩
  | deliverEnd m =>
    obtain ⟨half,hd,rfl⟩ := Option.map_eq_some_iff.mp h
    exact Option.map_eq_some_iff.mpr ⟨_,hd,rfl⟩
  | lose m =>
    obtain ⟨half,hd,rfl⟩ := Option.map_eq_some_iff.mp h
    exact Option.map_eq_some_iff.mpr ⟨_,hd,rfl⟩
  | recv =>
    have hp : u.alone.client.pollFrame 0 .empty =
        (u.body.pollFrame.1,{ u.alone.client with toServerRecvBody := u.body.pollFrame.2 }) := rfl
    simp only [Transfer.step] at h
    simp only [Download.step,TransferLabel.alone]
    cases hb : u.body.pollFrame with
    | mk r body =>
      rw [hb] at h
      have hp' : u.alone.client.pollFrame u.alone.now u.alone.err =
          (r,{ u.alone.client with toServerRecvBody := body }) := by
        refine hp.trans ?_
        rw [hb]
      rw [hp']
      cases r <;> cases h <;> rfl

theorem smooth_ends {u : Transfer ResponseLoop} (h : Smooth b u) :
    CanMeet Download.step (fun s l => Undisturbed s l ∧ l.orderly = true) (fun t => none ∈ t.yielded) u.alone := by
  refine CanMeet.lift (R := fun u v => v = u.alone) TransferLabel.alone ?_ ?_ rfl (h.ends (L := responseLoop))
  · rintro u _ l v rfl hl hst
    refine ⟨⟨fun _ => ⟨rfl,nofun⟩,?_⟩,v.alone,step_alone hst,rfl⟩
    cases l <;> first | rfl | exact hl
  · rintro u _ rfl hn
    exact hn

theorem download_shown (h : exec Download.step (download head frames ending deadline) ls = some s)
    (hU : Meets Download.step Undisturbed (download head frames ending deadline) ls)
    (hord : ∀ l ∈ ls, l.orderly = true) (hn : none ∈ s.yielded) (herr : ∀ e, some (.error e) ∉ s.yielded) :
    ∃ ds k, s.yielded = dataFrames ds ++ ending.shown ++ List.replicate k none ∧
      ds.flatten = frames.flatten := by
  obtain ⟨u,hS,hP,hs,hy⟩ := download_exact h hU hord
  rw [← hy] at hn herr ⊢
  exact hS.inv.shown hP hn herr

/-- Data frames and then the end, with neither an error nor a status. -/
def CleanEnd (results : List FrameResult) : Prop :=
  ∃ ds k, results = dataFrames ds ++ List.replicate (k + 1) none

/-- In no execution of the response loop without a failing send is a body that has failed
shown to the client as one that ended. -/
def FailureShown (head : ResponseHead) (frames : List Bytes) (ending : Ending) : Prop :=
  ∀ deadline ls s, exec Download.step (download head frames ending deadline) ls = some s →
    (∀ m, .send (.failed m) ∉ ls) → (∃ e, ending = .error e) → s.sender.body.ended = true →
      ¬ CleanEnd s.yielded

theorem CleanEnd.plain {rs : List FrameResult} (h : CleanEnd rs) : Plain rs := by
  obtain ⟨ds,k,rfl⟩ := h
  intro r hr
  rcases List.mem_append.mp hr with hr | hr
  · obtain ⟨d,-,rfl⟩ := List.mem_map.mp hr
    exact .inr ⟨d,rfl⟩
  · exact .inl (List.eq_of_mem_replicate hr)

theorem CleanEnd.none_mem {rs : List FrameResult} (h : CleanEnd rs) : none ∈ rs := by
  obtain ⟨ds,k,rfl⟩ := h
  exact List.mem_append_right _ List.mem_cons_self

/-- An empty frame in front of another one does not let a client read a body to a clean end. -/
theorem not_cleanEnd (h : exec Download.step (download head frames ending deadline) ls = some s)
    (he : s.sender.body.ended = true) (hf : [] ∈ frames.dropLast) : ¬ CleanEnd s.yielded := by
  intro hclean
  obtain ⟨u,hI,hR,hM,hE⟩ := download_refines h
  obtain ⟨hy,-⟩ := hM hclean.plain
  have herr (e : CoreError) : some (.error e) ∉ u.yielded := by
    intro hmem
    rw [hy] at hmem
    rcases hclean.plain _ hmem with h | ⟨d,h⟩ <;> cases h
  have hend := hE he
  rw [← hR.sender] at hend
  exact hI.solid hend (by rw [hy]; exact hclean.none_mem) herr hf

/-- The failure of a response body is shown exactly when the body does not fail, or has an
empty frame in front of another one, which is an error for h3: without one an ended and a
failed body leave the same wire and the same reading behind. -/
theorem failure_shown_iff (head : ResponseHead) (frames : List Bytes) (ending : Ending) :
    (FailureShown head frames ending ↔ (∀ e, ending ≠ .error e) ∨ [] ∈ frames.dropLast) ∧
    ([] ∉ frames.dropLast →
      ∀ deadline ls s, exec Download.step (download head frames ending deadline) ls = some s →
        Meets Download.step Undisturbed (download head frames ending deadline) ls →
        (∀ l ∈ ls, l.orderly = true) → (∀ t, ending ≠ .trailers t) → none ∈ s.yielded →
        CleanEnd s.yielded ∧ yieldedData s.yielded = frames.flatten ∧
          s.sender.wire.closing = some .fin ∧ s.sender.wire.tape.written = frames.flatMap frameCells) := by
  have hend (hf : [] ∉ frames.dropLast) (deadline : Option ℕ) (ls : List DownloadLabel) (s : Download)
      (h : exec Download.step (download head frames ending deadline) ls = some s)
      (hU : Meets Download.step Undisturbed (download head frames ending deadline) ls)
      (hord : ∀ l ∈ ls, l.orderly = true) (ht : ∀ t, ending ≠ .trailers t) (hn : none ∈ s.yielded) :
      s.sender.body.ended = true ∧ CleanEnd s.yielded ∧ yieldedData s.yielded = frames.flatten ∧
        s.sender.wire.closing = some .fin ∧ s.sender.wire.tape.written = frames.flatMap frameCells := by
    obtain ⟨u,hS,hP,hs,hy⟩ := download_exact h hU hord
    have herr (e : CoreError) : some (.error e) ∉ s.yielded := hy ▸ hS.clean hf e
    obtain ⟨ds,k,hshown,hds⟩ := download_shown h hU hord hn herr
    have hend : ending.shown = [none] := by
      cases ending with
      | trailers t => exact (ht t rfl).elim
      | clean => rfl
      | error e => rfl
    rw [hend,List.append_assoc,List.singleton_append,← List.replicate_succ] at hshown
    obtain ⟨-,c,-,hc,hne,-⟩ := hS.inv.ended (by rw [hy]; exact hn) (by rw [hy]; exact herr)
    have hc' : c = .fin := by
      cases c with
      | fin => rfl
      | broken => exact (hne rfl).elim
      | trailers t => exact (ht t (hP.inv.trailed t hc)).elim
    obtain ⟨he,hw⟩ := hP.whole c hc hne
    rw [hs] at hc he hw
    refine ⟨he,⟨ds,k,hshown⟩,?_,hc.trans (congrArg some hc'),hw⟩
    rw [hshown,yieldedData_append,yieldedData_dataFrames,yieldedData_replicate_none,List.append_nil,hds]
  refine ⟨⟨fun hF => ?_,?_⟩,fun hf deadline ls s h hU hord ht hn => (hend hf deadline ls s h hU hord ht hn).2⟩
  · by_contra hno
    obtain ⟨hne,hf⟩ := not_or.mp hno
    obtain ⟨e,rfl⟩ : ∃ e, ending = .error e := by
      by_contra h
      exact hne fun e he => h ⟨e,he⟩
    have hsmooth : Smooth (.new frames (.error e)) (Transfer.init (.respond head (.new frames (.error e)))) :=
      smooth_respond
    obtain ⟨ls,s,hls,hs,hn⟩ := smooth_ends hsmooth
    have hU : Meets Download.step Undisturbed (download head frames (.error e) none) ls := hls.mono fun _ _ h => h.1
    have hord : ∀ l ∈ ls, l.orderly = true := hls.labels hs fun _ _ h => h.2
    obtain ⟨he,hclean,-⟩ := hend hf none ls s hs hU hord nofun hn
    refine hF none ls s hs (fun m hm => ?_) ⟨e,rfl⟩ he hclean
    cases hord _ hm
  · rintro (hne | hf) deadline ls s hs hfail ⟨e,he⟩ hended
    · exact (hne e he).elim
    · exact not_cleanEnd hs hended hf

def failedDownload : List DownloadLabel :=
  [.send .begin,.send .flush,.send .sent,.send .poll,.send .begin,.send (.write 1),.send .flush,.send .sent,
   .send .poll,.send .flush,.send .sent,.deliver 1,.deliverEnd "",.recv,.recv]

theorem failed_response_shown_clean : ¬ ∀ head frames ending, FailureShown head frames ending := by
  intro h
  have hrun : ∃ s, exec Download.step (download ⟨200,[]⟩ [[1]] (.error "broken") none) failedDownload =
      some s ∧ s.sender.body.ended = true ∧ s.yielded = dataFrames [[1]] ++ List.replicate 1 none :=
    ⟨_,rfl,rfl,rfl⟩
  obtain ⟨s,hs,he,hy⟩ := hrun
  exact h ⟨200,[]⟩ [[1]] (.error "broken") none failedDownload s hs (by simp [failedDownload])
    ⟨_,rfl⟩ he ⟨[[1]],0,hy⟩

end GrpcQuic
