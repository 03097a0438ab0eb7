import GrpcQuic.Exchange.RoundTrip
import GrpcQuic.Client.StreamHalves

/-! # The request half of the stream

The forwarder and the body of the server's request are a transfer that the call
runs along with everything else. A run of the call is a run of that transfer.
-/
namespace GrpcQuic.RoundTrip
open Transition Server
variable {x : Setup} {s t : State}

def State.uploadOf (s : State) (f : Sender Forwarder) : Transfer Forwarder :=
  match s.handler with
  | some h => ⟨f,h.body,h.read⟩
  | none => .init f

def aborts (s : Rpc.State) : Rpc.Label → Bool
  | .call (.responded (.error _)) => true
  | .poll =>
    match s.body with
    | .present c => c.pollAborts s.now
    | _ => false
  | .dropBody =>
    match s.body with
    | .present c => c.dropAborts
    | _ => false
  | _ => false

def State.uploads (s : State) : Label → List TransferLabel
  | .client (.forward m) => [.send m]
  | .client l => if aborts s.client l then [.send .abort] else []
  | .read => [.recv]
  | .requestBytes n => [.deliver n]
  | .requestEnd message => [.deliverEnd message]
  | .requestLost message => [.lose message]
  | _ => []

structure Opened (s : State) : Prop where
  halves : Rpc.HalvesInv s.client
  accepted : s.client.forwarder = none → s.handler = none

def Uploads (x : Setup) (s t : State) (ls : List TransferLabel) : Prop :=
  match s.client.forwarder with
  | none => t.client.forwarder = none ∨
      ∃ f, t.client.forwarder = some f ∧ t.uploadOf f = upload x.frames x.ending
  | some f => ∃ f', t.client.forwarder = some f' ∧ exec uploadStep (s.uploadOf f) ls = some (t.uploadOf f')

theorem opened_init : Opened State.init := ⟨Rpc.halvesInv_init,fun _ => rfl⟩

theorem uploadOf_sender (s : State) (f : Sender Forwarder) : (s.uploadOf f).sender = f := by
  unfold State.uploadOf
  cases s.handler <;> rfl

theorem exec_uploadOf {f f' : Sender Forwarder} {m : SendLabel} (hh : t.handler = s.handler)
    (hst : f.step forwarderLoop m = some f') :
    exec uploadStep (s.uploadOf f) [.send m] = some (t.uploadOf f') := by
  have hu : { s.uploadOf f with sender := f' } = t.uploadOf f' := by
    unfold State.uploadOf
    rw [hh]
    cases s.handler <;> rfl
  simp only [exec_cons,exec_nil,Transfer.step,uploadOf_sender,hst,Option.map_some,Option.bind_some,hu]

theorem Uploads.same (hf : t.client.forwarder = s.client.forwarder) (hh : t.handler = s.handler) :
    Uploads x s t [] := by
  unfold Uploads
  rw [hf]
  cases s.client.forwarder with
  | none => exact .inl rfl
  | some f =>
    refine ⟨f,rfl,?_⟩
    unfold State.uploadOf
    rw [hh]
    rfl

/-- A step of the client that aborts its forwarder if `b` says so. -/
theorem Uploads.abort {b : Bool} (hf : t.client.forwarder = (s.client.abortIf b).forwarder)
    (hh : t.handler = s.handler) : Uploads x s t (if b then [.send .abort] else []) := by
  cases b with
  | false => exact .same hf hh
  | true =>
    unfold Uploads
    rw [hf]
    unfold Rpc.State.abortIf Rpc.State.abortForwarder
    cases s.client.forwarder with
    | none => exact .inl rfl
    | some f => exact ⟨f.abort forwarderLoop,rfl,exec_uploadOf hh rfl⟩

theorem Opened.client_uploads (h : Opened s) {l : Rpc.Label} {client : Rpc.State}
    (hst : Rpc.step x.request s.client l = some client) :
    Uploads x s { s with client } (s.uploads (.client l)) := by
  cases h.halves.moves hst with
  | still l hl hf hr hy =>
    have hl' : s.uploads (.client l) = [] := by
      cases l with
      | call e =>
        cases e with
        | responded r =>
          cases r with
          | ok head => rfl
          | error m => cases hl
        | _ => rfl
      | tick n => rfl
      | _ => cases hl
    rw [hl']
    exact .same hf rfl
  | spawn hf hf' hr hy hy' =>
    unfold Uploads
    rw [hf]
    refine .inr ⟨_,hf',?_⟩
    unfold State.uploadOf
    rw [h.accepted hf]
    rfl
  | fail m hf hr hy => exact Uploads.abort (b := true) hf rfl
  | release l hl hf hr hy => rcases hl with rfl | rfl <;> exact .same hf rfl
  | forward m f f' hf hsend hf' hr hy =>
    unfold Uploads
    rw [hf]
    exact ⟨f',hf',exec_uploadOf rfl hsend⟩
  | arrive d c hc he hf hr hy => exact .same hf rfl
  | arriveEnd e c hc he hf hr hy => exact .same hf rfl
  | poll c hb hc hf hr hy =>
    have ha : aborts s.client .poll = c.pollAborts s.client.now := by simp only [aborts,hb]
    simp only [State.uploads,ha]
    exact .abort hf rfl
  | dropBody c hb hf hr hy =>
    have ha : aborts s.client .dropBody = c.dropAborts := by simp only [aborts,hb]
    simp only [State.uploads,ha]
    exact .abort hf rfl

theorem Uploads.congr {t' : State} {ls : List TransferLabel} (h : Uploads x s t ls)
    (hc : t'.client = t.client) (hh : ∀ f, t'.uploadOf f = t.uploadOf f) : Uploads x s t' ls := by
  unfold Uploads at h ⊢
  simp only [hc,hh]
  exact h

theorem uploads_of_same (hc : t.client = s.client) (hh : ∀ f, t.uploadOf f = s.uploadOf f) :
    Uploads x s t [] :=
  (Uploads.same (t := s) rfl rfl).congr hc hh

theorem serve_cases {h h' : Handler} {l : RequestLabel} (hst : h.serve l = some h') :
    ∃ task, h.task.step l = some task ∧ ((h' = { h with task } ∧ ∀ r, l ≠ .called (some r)) ∨
      ∃ head body, l = .called (some (head,body)) ∧ body.ended = false ∧
        h' = { h with task, answer := some (head,body) }) := by
  unfold Handler.serve at hst
  split at hst
  · rename_i head body
    split at hst
    · cases hst
    · rename_i he
      obtain ⟨task,htask,rfl⟩ := Option.map_eq_some_iff.mp hst
      exact ⟨task,htask,.inr ⟨head,body,rfl,Bool.eq_false_iff.mpr he,rfl⟩⟩
  · rename_i hl
    obtain ⟨task,htask,rfl⟩ := Option.map_eq_some_iff.mp hst
    exact ⟨task,htask,.inl ⟨rfl,fun r hr => hl _ _ hr⟩⟩

theorem poll_readFrame {h h' : Handler} (hst : h.poll = some h') : h' = h.readFrame := by
  unfold Handler.poll at hst
  split at hst <;> cases hst <;> rfl

theorem readFrame_recv (h : Handler) (f : Sender Forwarder) :
    uploadStep ⟨f,h.body,h.read⟩ .recv = some ⟨f,h.readFrame.body,h.readFrame.read⟩ := by
  simp only [uploadStep,Transfer.step,Handler.readFrame]
  cases h.body.pollFrame with
  | mk r body => cases r <;> rfl

theorem receive_uploads {f : Wire → RecvHalf → Option (Wire × RecvHalf)} {l : TransferLabel}
    (hst : s.receive f = some t)
    (hl : ∀ (u : Transfer Forwarder) w half, f u.sender.wire u.body.stream = some (w,half) →
      uploadStep u l = some { u.setHalf half with sender := { u.sender with wire := w } }) :
    Uploads x s t [l] := by
  unfold State.receive at hst
  split at hst
  · rename_i forwarder h hf hh
    obtain ⟨⟨w,half⟩,hw,rfl⟩ := Option.map_eq_some_iff.mp hst
    unfold Uploads
    rw [hf]
    refine ⟨_,rfl,?_⟩
    have hu : s.uploadOf forwarder = ⟨forwarder,h.body,h.read⟩ := by
      unfold State.uploadOf
      rw [hh]
    have hstep := hl ⟨forwarder,h.body,h.read⟩ w half hw
    rw [hu,exec_cons,hstep]
    rfl
  · cases hst

/-- Every step of the call is a step of its request half, or leaves it alone. -/
theorem Opened.step_uploads (h : Opened s) {l : Label} (hst : step x s l = some t) :
    Uploads x s t (s.uploads l) := by
  cases l with
  | client l =>
    simp only [step] at hst
    split at hst
    · obtain ⟨client,hc,rfl⟩ := Option.map_eq_some_iff.mp hst
      exact h.client_uploads hc
    · cases hst
  | respond =>
    obtain ⟨head,-,hst⟩ := Option.bind_eq_some_iff.mp hst
    obtain ⟨client,hc,rfl⟩ := Option.map_eq_some_iff.mp hst
    exact h.client_uploads hc
  | accept =>
    simp only [step] at hst
    split at hst
    · rename_i f hf hh
      cases hst
      refine uploads_of_same rfl fun f => ?_
      unfold State.uploadOf
      rw [hh]
      rfl
    · cases hst
  | serve l =>
    obtain ⟨hd,hh,hst⟩ := Option.bind_eq_some_iff.mp hst
    obtain ⟨hd',hserve,rfl⟩ := Option.map_eq_some_iff.mp hst
    refine uploads_of_same rfl fun f => ?_
    unfold State.uploadOf
    rw [hh]
    obtain ⟨task,-,⟨rfl,-⟩ | ⟨head,body,-,-,rfl⟩⟩ := serve_cases hserve
    · rfl
    · rfl
  | read =>
    obtain ⟨hd,hh,hst⟩ := Option.bind_eq_some_iff.mp hst
    obtain ⟨hd',hpoll,rfl⟩ := Option.map_eq_some_iff.mp hst
    unfold Uploads
    cases hf : s.client.forwarder with
    | none => exact .inl rfl
    | some f =>
      refine ⟨f,rfl,?_⟩
      unfold State.uploadOf
      rw [hh,poll_readFrame hpoll]
      exact exec_cons_eq_some.mpr ⟨_,readFrame_recv hd f,rfl⟩
  | requestBytes n =>
    simp only [step] at hst
    refine receive_uploads hst fun u w half hw => ?_
    simp only [Transfer.step,hw,Option.map_some]
  | requestEnd m =>
    simp only [step] at hst
    refine receive_uploads hst fun u w half hw => ?_
    obtain ⟨half',hd,he⟩ := Option.map_eq_some_iff.mp hw
    cases he
    simp only [Transfer.step,hd,Option.map_some]
    rfl
  | requestLost m =>
    simp only [step] at hst
    refine receive_uploads hst fun u w half hw => ?_
    obtain ⟨half',hd,he⟩ := Option.map_eq_some_iff.mp hw
    cases he
    simp only [Transfer.step,hd,Option.map_some]
    rfl
  | responseBytes n =>
    obtain ⟨chunk,-,hst⟩ := Option.bind_eq_some_iff.mp hst
    obtain ⟨client,hc,rfl⟩ := Option.map_eq_some_iff.mp hst
    refine (h.client_uploads hc).congr rfl fun f => ?_
    unfold State.uploadOf
    cases s.handler <;> rfl
  | responseEnd m =>
    simp only [step] at hst
    split at hst
    · split at hst
      · obtain ⟨client,hc,rfl⟩ := Option.map_eq_some_iff.mp hst
        exact h.client_uploads hc
      · cases hst
    · cases hst
  | responseLost m =>
    obtain ⟨client,hc,rfl⟩ := Option.map_eq_some_iff.mp hst
    exact h.client_uploads hc

theorem halvesInv_wire {c : Rpc.State} (h : Rpc.HalvesInv c) {f : Sender Forwarder} (hf : c.forwarder = some f)
    (w : Wire) : Rpc.HalvesInv { c with forwarder := some { f with wire := w } } := by
  have hrun : Rpc.State.running { c with forwarder := some { f with wire := w } } = c.running := by
    simp only [Rpc.State.running,hf]
  refine ⟨?_,fun _ => h.spawned (by rw [hf]; exact nofun),nofun,h.unread,h.apart,h.answered⟩
  refine h.owner.setBody rfl rfl (fun hr => hrun.symm.trans hr) (fun hh => hh) Iff.rfl ?_ ?_
  · intro b hb
    rw [hrun]
    exact h.owner.armed b hb
  · intro hb
    rw [hrun]
    exact h.owner.gone hb

theorem Opened.of_client (h : Opened s) {l : Rpc.Label} {client : Rpc.State}
    (hst : Rpc.step x.request s.client l = some client) {handler : Option Handler}
    (hh : s.handler = none → handler = none) : Opened ⟨client,handler⟩ := by
  refine ⟨Rpc.step_halvesInv h.halves hst,fun hf => hh (h.accepted ?_)⟩
  by_contra hne
  obtain ⟨f,hf'⟩ := Option.ne_none_iff_exists'.mp hne
  have hu := h.client_uploads hst
  unfold Uploads at hu
  rw [hf'] at hu
  obtain ⟨f',hsome,-⟩ := hu
  exact nomatch hf.symm.trans hsome

theorem Opened.of_receive (h : Opened s) {f : Wire → RecvHalf → Option (Wire × RecvHalf)}
    (hst : s.receive f = some t) : Opened t := by
  unfold State.receive at hst
  split at hst
  · rename_i forwarder hd hf hh
    obtain ⟨⟨w,half⟩,hw,rfl⟩ := Option.map_eq_some_iff.mp hst
    exact ⟨halvesInv_wire h.halves hf w,nofun⟩
  · cases hst

theorem step_opened (h : Opened s) {l : Label} (hst : step x s l = some t) : Opened t := by
  cases l with
  | client l =>
    simp only [step] at hst
    split at hst
    · obtain ⟨client,hc,rfl⟩ := Option.map_eq_some_iff.mp hst
      exact h.of_client hc fun hh => hh
    · cases hst
  | respond =>
    obtain ⟨head,-,hst⟩ := Option.bind_eq_some_iff.mp hst
    obtain ⟨client,hc,rfl⟩ := Option.map_eq_some_iff.mp hst
    exact h.of_client hc fun hh => hh
  | accept =>
    simp only [step] at hst
    split at hst
    · rename_i f hf hh
      cases hst
      exact ⟨h.halves,fun hn => nomatch hf.symm.trans hn⟩
    · cases hst
  | serve l =>
    obtain ⟨hd,hh,hst⟩ := Option.bind_eq_some_iff.mp hst
    obtain ⟨hd',-,rfl⟩ := Option.map_eq_some_iff.mp hst
    exact ⟨h.halves,fun hf => nomatch hh.symm.trans (h.accepted hf)⟩
  | read =>
    obtain ⟨hd,hh,hst⟩ := Option.bind_eq_some_iff.mp hst
    obtain ⟨hd',-,rfl⟩ := Option.map_eq_some_iff.mp hst
    exact ⟨h.halves,fun hf => nomatch hh.symm.trans (h.accepted hf)⟩
  | requestBytes n =>
    simp only [step] at hst
    exact h.of_receive hst
  | requestEnd m =>
    simp only [step] at hst
    exact h.of_receive hst
  | requestLost m =>
    simp only [step] at hst
    exact h.of_receive hst
  | responseBytes n =>
    obtain ⟨chunk,-,hst⟩ := Option.bind_eq_some_iff.mp hst
    obtain ⟨client,hc,rfl⟩ := Option.map_eq_some_iff.mp hst
    exact h.of_client hc fun hh => Option.map_eq_none_iff.mpr hh
  | responseEnd m =>
    simp only [step] at hst
    split at hst
    · split at hst
      · obtain ⟨client,hc,rfl⟩ := Option.map_eq_some_iff.mp hst
        exact h.of_client hc fun hh => hh
      · cases hst
    · cases hst
  | responseLost m =>
    obtain ⟨client,hc,rfl⟩ := Option.map_eq_some_iff.mp hst
    exact h.of_client hc fun hh => hh

def RunsUpload (x : Setup) (A : TransferLabel → Prop) (s : State) : Prop :=
  ∀ f, s.client.forwarder = some f →
    ∃ ms, (∀ m ∈ ms, A m) ∧ exec uploadStep (upload x.frames x.ending) ms = some (s.uploadOf f)

theorem runsUpload_init {A : TransferLabel → Prop} : RunsUpload x A State.init := by
  intro f hf
  cases hf

theorem RunsUpload.step {A : TransferLabel → Prop} (h : RunsUpload x A s) (hO : Opened s) {l : Label}
    (hA : ∀ m ∈ s.uploads l, A m) (hst : RoundTrip.step x s l = some t) : RunsUpload x A t := by
  intro f hf
  have hu := hO.step_uploads hst
  unfold Uploads at hu
  cases hs : s.client.forwarder with
  | none =>
    rw [hs] at hu
    rcases hu with hn | ⟨f',hf',hu⟩
    · exact nomatch hf.symm.trans hn
    · cases hf.symm.trans hf'
      exact ⟨[],nofun,congrArg some hu.symm⟩
  | some f₀ =>
    rw [hs] at hu
    obtain ⟨f',hf',hu⟩ := hu
    cases hf.symm.trans hf'
    obtain ⟨ms,hms,hrun⟩ := h f₀ hs
    refine ⟨ms ++ s.uploads l,fun m hm => ?_,?_⟩
    · rcases List.mem_append.mp hm with hm | hm
      · exact hms m hm
      · exact hA m hm
    · rw [exec_append,hrun]
      exact hu

/-- In every run the request half makes a run of its own, from the spawn of the
forwarder on, whose labels are those the run has for it. -/
theorem exec_uploads {A : TransferLabel → Prop} {ls : List Label}
    (h : exec (step x) State.init ls = some s)
    (hA : Meets (step x) (fun s l => ∀ m ∈ s.uploads l, A m) State.init ls) : RunsUpload x A s :=
  (exec_invariant_of_meets (I := fun s => Opened s ∧ RunsUpload x A s)
    (fun _ _ _ hs hl hst => ⟨step_opened hs.1 hst,hs.2.step hs.1 hl hst⟩)
    ⟨opened_init,runsUpload_init⟩ hA h).2

end GrpcQuic.RoundTrip
