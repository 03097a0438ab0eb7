import GrpcQuic.Client.RpcGuarantees
import GrpcQuic.Transition.Counting

/-! # The concurrency limit of a channel

A channel and its clones share one semaphore. The future of a call takes a permit
before anything else and owns it as `_permit`, so the permit goes back with the
future, whichever way that ends. A response body does not hold it.
-/
namespace GrpcQuic.ConcurrencyLimit
open Transition

/-- A call on the channel or on a clone of it. The counters tell how often it took
a permit and how often it gave one back. -/
structure ChannelCall where
  req : Rpc.Request
  rpc : Rpc.State
  permit : Bool
  acquired : ℕ
  released : ℕ

def ChannelCall.new (req : Rpc.Request) : ChannelCall := ⟨req,.init,false,0,0⟩

structure State where
  permits : ℕ
  calls : List ChannelCall

def State.init (concurrencyLimit : ℕ) : State := ⟨concurrencyLimit,[]⟩

inductive Label where
  | call (req : Rpc.Request)
  | rpc (i : ℕ) (l : Rpc.Label)

/-- `acquire_owned().await`, for the step that contains it. The semaphore is never closed. -/
def acquire (permits : ℕ) (call : ChannelCall) : Rpc.Label → Option (ℕ × ChannelCall)
  | .call (.acquired true) =>
    if 0 < permits then
      some (permits - 1,{ call with permit := true, acquired := call.acquired + 1 })
    else none
  | .call (.acquired false) => none
  | _ => some (permits,call)

/-- A future that is over has dropped its `_permit`. -/
def release (permits : ℕ) (call : ChannelCall) : ℕ × ChannelCall :=
  if call.permit && call.rpc.ended then
    (permits + 1,{ call with permit := false, released := call.released + 1 })
  else (permits,call)

def step (s : State) : Label → Option State
  | .call req => some { s with calls := s.calls ++ [.new req] }
  | .rpc i l =>
    s.calls[i]?.bind fun call =>
      (acquire s.permits call l).bind fun (permits,call) =>
        (Rpc.step call.req call.rpc l).map fun rpc =>
          let (permits,call) := release permits { call with rpc }
          ⟨permits,s.calls.set i call⟩

def ChannelCall.queued (call : ChannelCall) : Bool :=
  match call.rpc.call.phase with
  | .acquiring => true
  | _ => false

def ChannelCall.awaiting (call : ChannelCall) : Bool :=
  call.rpc.pending && match call.rpc.call.phase with
    | .awaitingResponse => true
    | _ => false

def ChannelCall.reading (call : ChannelCall) : Bool :=
  match call.rpc.body with
  | .present body => !(body.isClosed || body.trailersDone)
  | _ => false

def ChannelCall.inProgress (call : ChannelCall) : Bool := call.awaiting || call.reading

structure ChannelCall.Ledger (call : ChannelCall) : Prop where
  held : call.permit = (call.rpc.pending && !call.queued)
  taken : call.acquired = if call.queued then 0 else 1
  balance : call.acquired = call.released + if call.permit then 1 else 0

structure LimitInv (n : ℕ) (s : State) : Prop where
  ledger : ∀ call ∈ s.calls, call.Ledger
  total : s.permits + s.calls.countP ChannelCall.permit = n

variable {n permits permits' : ℕ} {call call' : ChannelCall} {s t : State}

theorem acquire_cases {l : Rpc.Label} (h : acquire permits call l = some (permits',call')) :
    (l = .call (.acquired true) ∧ permits = permits' + 1 ∧
      call' = { call with permit := true, acquired := call.acquired + 1 }) ∨
    ((∀ b, l ≠ .call (.acquired b)) ∧ permits' = permits ∧ call' = call) := by
  unfold acquire at h
  split at h
  · split at h
    · cases h
      exact .inl ⟨rfl,by omega,rfl⟩
    · cases h
  · cases h
  · rename_i htrue hfalse
    cases h
    refine .inr ⟨fun b hb => ?_,rfl,rfl⟩
    cases b with
    | true => exact htrue hb
    | false => exact hfalse hb

/-- A call leaves the queue once, with the answer of the semaphore. -/
theorem call_step_acquired {cfg : Call.Config} {c c' : Call.State} {e : Call.Event}
    (h : Call.step cfg c e = some c') :
    c'.phase ≠ .acquiring ∧ (∀ r, c.phase ≠ .done r) ∧ (c.phase = .acquiring ↔ ∃ b, e = .acquired b) := by
  have hnext := Call.step_phase h
  generalize c.phase = p at hnext ⊢
  generalize c'.phase = p' at hnext ⊢
  cases hnext with
  | admitted p' hp =>
    exact ⟨hp.ne_of nofun nofun nofun,nofun,fun _ => ⟨true,rfl⟩,fun _ => rfl⟩
  | closed => exact ⟨nofun,nofun,fun _ => ⟨false,rfl⟩,fun _ => rfl⟩
  | invalidated p' hp =>
    exact ⟨hp.ne_of nofun nofun nofun,nofun,nofun,by rintro ⟨b,⟨⟩⟩⟩
  | _ => exact ⟨nofun,nofun,nofun,by rintro ⟨b,⟨⟩⟩⟩

theorem onEvent_frame (req : Rpc.Request) (r : Rpc.State) (e : Call.Event) :
    (r.onEvent req e).call = r.call ∧ (r.onEvent req e).dropped = r.dropped := by
  unfold Rpc.State.onEvent
  split
  · exact ⟨rfl,rfl⟩
  · split <;> exact ⟨rfl,rfl⟩
  · exact ⟨rfl,rfl⟩
  · exact ⟨rfl,rfl⟩

theorem rpc_step_frame {req : Rpc.Request} {r r' : Rpc.State} {l : Rpc.Label}
    (h : Rpc.step req r l = some r') :
    (∃ e, l = .call e ∧ r.dropped = false ∧ r'.dropped = false ∧
      Call.step req.call r.call e = some r'.call) ∨
    ((∀ e, l ≠ .call e) ∧ r'.call = r.call ∧ (r'.dropped = false → r.dropped = false)) := by
  have hhalf {u : Rpc.State} {f : RecvHalf → RecvHalf} (hu : r.mapHalf f = some u) :
      u.call = r.call ∧ u.dropped = r.dropped := by
    rcases Rpc.mapHalf_cases hu with ⟨half,-,-,rfl⟩ | ⟨b,-,-,-,rfl⟩ <;> exact ⟨rfl,rfl⟩
  rcases Rpc.step_cases h with ⟨e,cs,rfl,hd,hcs,rfl⟩ | ⟨hl,-,rfl⟩ | ⟨m,f,f',rfl,-,-,-,rfl⟩ |
    ⟨d,u,rfl,hu,rfl⟩ | ⟨e,u,rfl,hu,rfl⟩ | ⟨k,rfl,rfl⟩ | ⟨b,rfl,-,rfl⟩ | ⟨b,rfl,-,rfl⟩
  · obtain ⟨hcall,hdropped⟩ := onEvent_frame req (r.goOn req cs) e
    exact .inl ⟨e,rfl,hd,hdropped.trans hd,hcs.trans (congrArg some hcall.symm)⟩
  · refine .inr ⟨?_,rfl,by rintro ⟨⟩⟩
    rintro e rfl
    rcases hl with hl | hl <;> cases hl
  · exact .inr ⟨by rintro e ⟨⟩,rfl,fun hd => hd⟩
  · exact .inr ⟨by rintro e ⟨⟩,(hhalf hu).1,fun hd => (hhalf hu).2.symm.trans hd⟩
  · exact .inr ⟨by rintro e ⟨⟩,(hhalf hu).1,fun hd => (hhalf hu).2.symm.trans hd⟩
  · exact .inr ⟨by rintro e ⟨⟩,rfl,fun hd => hd⟩
  · refine .inr ⟨by rintro e ⟨⟩,Rpc.abortIf_call r _,fun hd => ?_⟩
    exact (Rpc.abortIf_dropped r _).symm.trans hd
  · refine .inr ⟨by rintro e ⟨⟩,Rpc.abortIf_call r _,fun hd => ?_⟩
    exact (Rpc.abortIf_dropped r _).symm.trans hd

theorem queued_iff (call : ChannelCall) : call.queued = true ↔ call.rpc.call.phase = .acquiring := by
  unfold ChannelCall.queued
  cases call.rpc.call.phase <;> simp

/-- The ledger between the step of the future and the end of it. -/
structure ChannelCall.Unsettled (call : ChannelCall) : Prop where
  waits : call.queued = true → call.permit = false
  held : call.rpc.pending = true → call.queued = false → call.permit = true
  taken : call.acquired = if call.queued then 0 else 1
  balance : call.acquired = call.released + if call.permit then 1 else 0

theorem release_ledger (permits : ℕ) (h : call.Unsettled) :
    (release permits call).2.Ledger ∧
    (release permits call).1 + (if (release permits call).2.permit then 1 else 0) =
      permits + if call.permit then 1 else 0 := by
  unfold release
  split
  · rename_i hr
    obtain ⟨hp,he⟩ := Bool.and_eq_true_iff.mp hr
    have hbal := h.balance
    rw [hp] at hbal
    refine ⟨⟨?_,h.taken,?_⟩,?_⟩
    · rw [show call.rpc.pending = false from Bool.not_eq_true' _ ▸ he]
      rfl
    · exact hbal
    · rw [hp]
      rfl
  · rename_i hr
    refine ⟨⟨?_,h.taken,h.balance⟩,rfl⟩
    cases hp : call.permit with
    | true =>
      have hq : call.queued = false := Bool.eq_false_iff.mpr fun hq => by
        cases (h.waits hq).symm.trans hp
      have hpend : call.rpc.pending = true := by
        cases he : call.rpc.pending with
        | true => rfl
        | false => exact (hr (by rw [hp,Rpc.State.ended,he]; rfl)).elim
      rw [hq,hpend]
      rfl
    | false =>
      cases hpend : call.rpc.pending with
      | false => rfl
      | true =>
        cases hq : call.queued with
        | true => rfl
        | false => cases hp.symm.trans (h.held hpend hq)

theorem step_dequeued {rpc : Rpc.State} (hst : Rpc.step call.req call.rpc (.call (.acquired true)) = some rpc) :
    call.queued = true ∧ rpc.call.phase ≠ .acquiring := by
  rcases rpc_step_frame hst with ⟨e,he,-,-,hcall⟩ | ⟨hno,-⟩
  · cases he
    obtain ⟨hphase,-,hturn⟩ := call_step_acquired hcall
    exact ⟨(queued_iff call).mpr (hturn.mpr ⟨true,rfl⟩),hphase⟩
  · exact (hno _ rfl).elim

/-- No other step takes a call out of the queue or puts it there, and none revives it. -/
theorem step_queued {l : Rpc.Label} {rpc : Rpc.State} (hl : ∀ b, l ≠ .call (.acquired b))
    (hst : Rpc.step call.req call.rpc l = some rpc) :
    { call with rpc }.queued = call.queued ∧ (rpc.pending = true → call.rpc.pending = true) := by
  rcases rpc_step_frame hst with ⟨e,rfl,hd,-,hcall⟩ | ⟨-,hcall,hd⟩
  · obtain ⟨hphase,hdone,hturn⟩ := call_step_acquired hcall
    refine ⟨?_,fun _ => (Rpc.pending_iff _).mpr ⟨hd,hdone⟩⟩
    have hq : call.queued = false := Bool.eq_false_iff.mpr fun hq => by
      obtain ⟨b,rfl⟩ := hturn.mp ((queued_iff call).mp hq)
      exact hl b rfl
    rw [hq]
    exact Bool.eq_false_iff.mpr fun hq' => hphase ((queued_iff _).mp hq')
  · refine ⟨by unfold ChannelCall.queued; rw [hcall],fun hp => ?_⟩
    obtain ⟨hlive,hdone⟩ := (Rpc.pending_iff rpc).mp hp
    rw [hcall] at hdone
    exact (Rpc.pending_iff _).mpr ⟨hd hlive,hdone⟩

theorem advance_unsettled (h : call.Ledger) {l : Rpc.Label} {rpc : Rpc.State}
    (ha : acquire permits call l = some (permits',call')) (hst : Rpc.step call'.req call'.rpc l = some rpc) :
    { call' with rpc }.Unsettled ∧
    permits' + (if call'.permit then 1 else 0) = permits + if call.permit then 1 else 0 := by
  rcases acquire_cases ha with ⟨rfl,rfl,rfl⟩ | ⟨hl,rfl,rfl⟩
  · have hst' : Rpc.step call.req call.rpc (.call (.acquired true)) = some rpc := hst
    obtain ⟨hq,hphase⟩ := step_dequeued hst'
    have hq' : { call with rpc, permit := true, acquired := call.acquired + 1 }.queued = false :=
      Bool.eq_false_iff.mpr fun hq' => hphase ((queued_iff _).mp hq')
    have hp : call.permit = false := by rw [h.held,hq,Bool.not_true,Bool.and_false]
    have htaken := h.taken
    have hbal := h.balance
    rw [hq] at htaken
    rw [hp] at hbal
    refine ⟨⟨fun hw => ?_,fun _ _ => rfl,?_,?_⟩,?_⟩
    · cases hq'.symm.trans hw
    · rw [hq']
      exact congrArg (· + 1) htaken
    · exact congrArg (· + 1) hbal
    · rw [hp]
      rfl
  · obtain ⟨hq,hp⟩ := step_queued hl hst
    refine ⟨⟨fun hw => ?_,fun hpend hw => ?_,?_,h.balance⟩,rfl⟩
    · rw [hq] at hw
      exact h.held.trans (by rw [hw,Bool.not_true,Bool.and_false])
    · rw [hq] at hw
      exact h.held.trans (by rw [hw,hp hpend]; rfl)
    · rw [hq]
      exact h.taken

theorem ledger_new (req : Rpc.Request) : (ChannelCall.new req).Ledger := ⟨rfl,rfl,rfl⟩

theorem limitInv_init (n : ℕ) : LimitInv n (.init n) :=
  ⟨fun _ hc => (List.not_mem_nil hc).elim,rfl⟩

theorem step_limitInv (h : LimitInv n s) {l : Label} (hst : step s l = some t) : LimitInv n t := by
  cases l with
  | call req =>
    cases hst
    refine ⟨fun call hc => ?_,?_⟩
    · rcases List.mem_append.mp hc with hc | hc
      · exact h.ledger call hc
      · exact List.mem_singleton.mp hc ▸ ledger_new req
    · have htotal := h.total
      simp only [List.countP_append]
      exact htotal
  | rpc i m =>
    obtain ⟨call,hi,hst⟩ := Option.bind_eq_some_iff.mp hst
    obtain ⟨⟨permits,next⟩,ha,hst⟩ := Option.bind_eq_some_iff.mp hst
    obtain ⟨rpc,hrpc,rfl⟩ := Option.map_eq_some_iff.mp hst
    obtain ⟨hun,hin⟩ := advance_unsettled (h.ledger call (List.mem_of_getElem? hi)) ha hrpc
    obtain ⟨hledger,hout⟩ := release_ledger permits hun
    refine ⟨fun c hc => ?_,?_⟩
    · rcases List.mem_or_eq_of_mem_set hc with hc | rfl
      · exact h.ledger c hc
      · exact hledger
    · have hset := countP_set_add ChannelCall.permit hi (release permits { next with rpc }).2
      have htotal := h.total
      dsimp only at hset hout hin htotal ⊢
      omega

theorem exec_limitInv {ls : List Label} (h : exec step (.init n) ls = some s) : LimitInv n s :=
  exec_invariant (fun _ _ _ hI hst => step_limitInv hI hst) (limitInv_init n) h

/-- A call past the queue that is not over holds its permit. -/
theorem ChannelCall.Ledger.awaiting (h : call.Ledger) (ha : call.awaiting = true) : call.permit = true := by
  obtain ⟨hp,ha⟩ := Bool.and_eq_true_iff.mp ha
  have hq : call.queued = false := by
    unfold ChannelCall.queued
    split
    · rename_i hphase
      rw [hphase] at ha
      cases ha
    · rfl
  exact h.held.trans (by rw [hp,hq]; rfl)

/-- At most `n` calls of a channel are between the opening of their request stream
and their end as futures. A call takes at most one permit and keeps it until then,
when it has given back what it took. -/
theorem calls_limited {ls : List Label} (h : exec step (.init n) ls = some s) :
    s.calls.countP ChannelCall.awaiting ≤ n ∧ s.permits + s.calls.countP ChannelCall.permit = n ∧
    ∀ call ∈ s.calls, (call.awaiting = true → call.permit = true) ∧
      call.permit = (call.rpc.pending && !call.queued) ∧ call.acquired ≤ 1 ∧
      (call.rpc.ended = false → call.released = 0) ∧
      (call.rpc.ended = true → call.permit = false ∧ call.released = call.acquired) := by
  have hinv := exec_limitInv h
  refine ⟨?_,hinv.total,fun call hc => ?_⟩
  · have hle : s.calls.countP ChannelCall.awaiting ≤ s.calls.countP ChannelCall.permit :=
      List.countP_mono_left fun call hc ha => (hinv.ledger call hc).awaiting ha
    have htotal := hinv.total
    omega
  · have hledger := hinv.ledger call hc
    have htaken := hledger.taken
    have hbal := hledger.balance
    refine ⟨hledger.awaiting,hledger.held,?_,fun he => ?_,fun he => ?_⟩
    · rw [htaken]
      split <;> omega
    · have hp : call.rpc.pending = true := by
        cases hp : call.rpc.pending with
        | true => rfl
        | false => cases he.symm.trans (congrArg not hp)
      rw [hledger.held,hp] at hbal
      cases hq : call.queued <;> rw [hq] at hbal htaken <;> simp at hbal htaken <;> omega
    · have hp : call.permit = false := by
        rw [hledger.held,show call.rpc.pending = false from Bool.not_eq_true' _ ▸ he]
        rfl
      rw [hp] at hbal
      exact ⟨hp,hbal.symm⟩

def openStream (i : ℕ) : List Label :=
  [.rpc i (.call (.acquired true)),.rpc i (.call (.pooled (.ok ⟨⟨0⟩,⟨0⟩⟩))),.rpc i (.call (.built (.ok ()))),
    .rpc i (.call (.sent (.ok ())))]

/-- The response of the first call is there, and nobody has read it. -/
def overlappingCalls : List Label :=
  .call Rpc.streamingRequest :: openStream 0 ++ [.rpc 0 (.call (.responded (.ok ⟨200,[]⟩)))] ++
    .call Rpc.streamingRequest :: openStream 1

theorem overlappingCalls_inProgress : ∃ s, exec step (.init 1) overlappingCalls = some s ∧
    s.calls.countP ChannelCall.inProgress = 2 ∧ s.calls.countP ChannelCall.awaiting = 1 := ⟨_,rfl,rfl,rfl⟩

theorem read_responses_unlimited : ¬ ∀ n ls s, exec step (.init n) ls = some s →
    s.calls.countP ChannelCall.inProgress ≤ n := by
  intro h
  obtain ⟨s,hs,hcount,-⟩ := overlappingCalls_inProgress
  have hle := h 1 _ s hs
  omega

theorem calls_limited_overlappingCalls : ∃ s, exec step (.init 1) overlappingCalls = some s ∧
    s.permits = 0 ∧ s.calls.countP ChannelCall.awaiting = 1 := by
  obtain ⟨s,hs,-,hcount⟩ := overlappingCalls_inProgress
  obtain ⟨hle,htotal,hcalls⟩ := calls_limited hs
  have hheld := List.countP_mono_left fun call hc => (hcalls call hc).1
  exact ⟨s,hs,by omega,hcount⟩

end GrpcQuic.ConcurrencyLimit
