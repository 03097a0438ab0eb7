import GrpcQuic.Client.ChannelSafety
import GrpcQuic.Client.PoolDials

/-! # What every run of a channel guarantees

The channel runs its parts and nothing else, so what holds of each of them holds
of it. Between them: no more callers wait in the pool than there are permits, a
request goes out on a connection the pool has made, and the error of a call is one
of three.
-/
namespace GrpcQuic.Client
open Transition ConcurrencyLimit
variable {Addr : Type*} [DecidableEq Addr] {p : Platform} {ch : QuicChannel Addr} {s t : State Addr}

omit [DecidableEq Addr] in
theorem parts_refl [DecidableEq Addr] (s : State Addr) : Parts s s := ⟨⟨[],rfl⟩,[],rfl⟩

theorem Parts.trans {u : State Addr} (h : Parts s t) (h' : Parts t u) : Parts s u := by
  obtain ⟨⟨ps,hps⟩,ls,hls⟩ := h
  obtain ⟨⟨qs,hqs⟩,ms,hms⟩ := h'
  refine ⟨⟨ps ++ qs,?_⟩,ls ++ ms,?_⟩
  · rw [exec_append,hps]
    exact hqs
  · rw [exec_append,hls]
    exact hms

theorem exec_parts {ls : List Label} (h : exec (ch.step p) s ls = some t) : Parts s t :=
  exec_invariant (I := Parts s) (fun _ _ _ hI hst => hI.trans (step_parts hst)) (parts_refl s) h

/-- A channel refines its parts: every run of it is a run of the pool, one of the
semaphore with the calls, and for each call a run of its own future, on the
request that its argument and its header make, all by one clock. -/
theorem channel_refines (p : Platform) (ch : QuicChannel Addr) {ls : List Label}
    (h : exec (ch.step p) ch.init ls = some s) :
    (∃ ps, exec Pool.step Pool.State.init ps = some s.pool) ∧
    (∃ cs, exec ConcurrencyLimit.step (.init ch.concurrencyLimit) cs = some s.limit) ∧
    ∀ c call, s.call c = some call → call.rpc.now = s.now ∧
      (∃ parts body polled deadline, Timeout.deadline p.overflowChecks polled parts.headers = .ok deadline ∧
        call.req = ch.request parts body deadline) ∧
      ∃ ms, exec (Rpc.step call.req) Rpc.State.init ms = some call.rpc := by
  have hparts := exec_parts h
  have hinv := exec_channelInv h
  refine ⟨hparts.pool,hparts.limit,fun c call hc => ⟨hinv.clock c call hc,(hinv.call c call hc).made,?_⟩⟩
  exact hinv.traced call (List.mem_of_getElem? hc)

def Waits (s : State Addr) (i : ℕ × ℕ) : Prop :=
  ∃ a, s.pool.phase i = .locking a ∨ s.pool.phase i = .waiting a

omit [DecidableEq Addr] in
theorem ChannelInv.waits (h : ChannelInv p ch s) {c k : ℕ} (hw : Waits s (c,k)) : ∃ call, s.call c = some call ∧
    call.permit = true ∧ call.rpc.pending = true ∧ call.rpc.call.attempt = k ∧ call.rpc.call.phase = .pooling := by
  obtain ⟨a,ha⟩ := hw
  obtain ⟨call,hc,-,hk,hp,hd⟩ := h.blocked ha
  have hpend : call.rpc.pending = true := (Rpc.pending_iff _).mpr ⟨hd,by rw [hp]; exact nofun⟩
  refine ⟨call,hc,?_,hpend,hk.symm,hp⟩
  rw [(h.limit.ledger call (List.mem_of_getElem? hc)).held,hpend]
  simp only [ChannelCall.queued,hp,Bool.not_false,Bool.and_self]

omit [DecidableEq Addr] in
/-- No more callers wait in the pool than calls hold permits. -/
theorem ChannelInv.card_waiting (h : ChannelInv p ch s) {callers : Finset (ℕ × ℕ)}
    (hw : ∀ i ∈ callers, Waits s i) : callers.card ≤ ch.concurrencyLimit := by
  have hinj : Set.InjOn Prod.fst (callers : Set (ℕ × ℕ)) := by
    rintro ⟨c,k⟩ hi ⟨d,j⟩ hj hcd
    cases hcd
    obtain ⟨call,hc,-,-,hk,-⟩ := h.waits (hw _ hi)
    obtain ⟨call',hc',-,-,hj',-⟩ := h.waits (hw _ hj)
    cases hc.symm.trans hc'
    rw [← hk,← hj']
  have hplaces : ∀ c ∈ callers.image Prod.fst, ∃ call, s.limit.calls[c]? = some call ∧ call.permit = true := by
    intro c hc
    obtain ⟨i,hi,rfl⟩ := Finset.mem_image.mp hc
    obtain ⟨call,hcall,hpermit,-⟩ := h.waits (hw i hi)
    exact ⟨call,hcall,hpermit⟩
  have hle := card_le_countP hplaces
  rw [Finset.card_image_of_injOn hinj] at hle
  have htotal := h.limit.total
  omega

/-- Whatever the schedule, a caller waiting in the pool is that of the present
attempt of a live call with a permit, so they are at most as many as the limit;
and a request is only sent on a connection that a task of the pool has made. -/
theorem channel_safe (p : Platform) (ch : QuicChannel Addr) {ls : List Label}
    (h : exec (ch.step p) ch.init ls = some s) :
    (∀ c k, Waits s (c,k) → ∃ call, s.call c = some call ∧ call.permit = true ∧ call.rpc.pending = true ∧
      call.rpc.call.attempt = k ∧ call.rpc.call.phase = .pooling) ∧
    (∀ callers : Finset (ℕ × ℕ), (∀ i ∈ callers, Waits s i) → callers.card ≤ ch.concurrencyLimit) ∧
    ∀ c call e, s.call c = some call → call.rpc.call.phase = .sending e →
      ∃ k, s.pool.tasks k = some ⟨ch.remote,.completed (.ok e)⟩ := by
  have hinv := exec_channelInv h
  exact ⟨fun c k hw => hinv.waits hw,fun callers hw => hinv.card_waiting hw,
    fun c call e hc he => (hinv.call c call hc).entry e (.inr he)⟩

/-- A call that fails reports the text of a pool or stream failure, or the verdict on
its head, or, if it had no attempt, that none failed. It never reports a transport
error, an invalid response or a closed channel, nor that its connect task was gone. -/
theorem errors_classified (p : Platform) (ch : QuicChannel Addr) {ls : List Label}
    (h : exec (ch.step p) ch.init ls = some s) {c : ℕ} {call : ChannelCall} (hc : s.call c = some call)
    {e : ClientError} (he : call.rpc.call.phase = .done (.error e)) :
    (∃ m, e = .streamIo m) ∨ (∃ m, e = .requestBuild m ∧ p.build call.req.call.h3Request = .error m) ∨
      (ch.retry.maxAttempts = 0 ∧ e = .retriesExhausted 0 "no error captured") :=
  ((exec_channelInv h).call c call hc).result _ he

omit [DecidableEq Addr] in
theorem ChannelInv.joined (h : ChannelInv p ch s) {c k : ℕ} (hj : s.pool.joined (c,k) ≠ none) :
    c < s.limit.calls.length ∧ k < ch.retry.maxAttempts := by
  have hne : s.pool.phase (c,k) ≠ .idle := fun hi => hj (h.pool.senders.unjoined _ (.inl hi))
  cases hc : s.call c with
  | none => exact (hne (h.absent c hc k)).elim
  | some call => exact ⟨(List.getElem?_eq_some_iff.mp hc).1,(h.call c call hc).asked k hne⟩

/-- A channel dials at most once for each attempt that its calls may make. -/
theorem dials_bounded (p : Platform) (ch : QuicChannel Addr) {ls : List Label}
    (h : exec (ch.step p) ch.init ls = some s) :
    s.pool.nextTask ≤ s.limit.calls.length * ch.retry.maxAttempts := by
  have hinv := exec_channelInv h
  obtain ⟨ps,hps⟩ := (exec_parts h).pool
  have hcallers : ∀ i, s.pool.joined i ≠ none →
      i ∈ Finset.range s.limit.calls.length ×ˢ Finset.range ch.retry.maxAttempts := by
    rintro ⟨c,k⟩ hj
    obtain ⟨hc,hk⟩ := hinv.joined hj
    exact Finset.mem_product.mpr ⟨Finset.mem_range.mpr hc,Finset.mem_range.mpr hk⟩
  have hle := (Pool.exec_spawned hps).card_le hcallers
  rwa [Finset.card_product,Finset.card_range,Finset.card_range] at hle

def plainPlatform : Platform := ⟨true,fun _ => .ok ()⟩

def echoParts : Call.RequestParts := ⟨"POST",none,"/echo",[]⟩

def pairChannel : QuicChannel ℕ := ⟨7,"localhost",none,.default,2⟩

def sharedDial : List Label :=
  [.call echoParts (.new [[1]] .clean),.call echoParts (.new [] .clean),.acquire 0,.acquire 1,.enter 0,.lookup 0,
   .enter 1,.lookup 1]

theorem sharedDial_waits : ∃ s, exec (pairChannel.step plainPlatform) pairChannel.init sharedDial = some s ∧
    s.pool.phase (0,0) = .waiting 7 ∧ s.pool.phase (1,0) = .waiting 7 ∧ s.pool.nextTask = 1 :=
  ⟨_,rfl,rfl,rfl,rfl⟩

theorem channel_safe_sharedDial : ∃ s, exec (pairChannel.step plainPlatform) pairChannel.init sharedDial = some s ∧
    ({(0,0),(1,0)} : Finset (ℕ × ℕ)).card ≤ pairChannel.concurrencyLimit := by
  obtain ⟨s,h,h0,h1,-⟩ := sharedDial_waits
  refine ⟨s,h,(channel_safe plainPlatform pairChannel h).2.1 _ fun i hi => ?_⟩
  rcases Finset.mem_insert.mp hi with rfl | hi
  · exact ⟨7,.inr h0⟩
  · cases Finset.mem_singleton.mp hi
    exact ⟨7,.inr h1⟩

theorem dials_bounded_sharedDial : ∃ s, exec (pairChannel.step plainPlatform) pairChannel.init sharedDial = some s ∧
    s.pool.nextTask = 1 ∧ s.pool.nextTask ≤ s.limit.calls.length * pairChannel.retry.maxAttempts := by
  obtain ⟨s,h,-,-,hn⟩ := sharedDial_waits
  exact ⟨s,h,hn,dials_bounded plainPlatform pairChannel h⟩

def singleAttempt : QuicChannel ℕ := { pairChannel with retry := { Retry.RetryPolicy.default with maxAttempts := 1 } }

def failedDial : List Label :=
  [.call echoParts (.new [[1]] .clean),.acquire 0,.enter 0,.lookup 0,
   .dial 0 ⟨.ok (),.ok (),.ok (),.error "timed out"⟩,.complete 0,.answer,.finish,.receive 0,.invalidate 0]

theorem failedDial_fails :
    ∃ s call e, exec (singleAttempt.step plainPlatform) singleAttempt.init failedDial = some s ∧
      s.call 0 = some call ∧ call.rpc.call.phase = .done (.error e) :=
  ⟨_,_,_,rfl,rfl,rfl⟩

theorem errors_classified_failedDial :
    ∃ s call e, exec (singleAttempt.step plainPlatform) singleAttempt.init failedDial = some s ∧
      s.call 0 = some call ∧ call.rpc.call.phase = .done (.error e) ∧
      ((∃ m, e = .streamIo m) ∨ (∃ m, e = .requestBuild m ∧ plainPlatform.build call.req.call.h3Request = .error m) ∨
        (singleAttempt.retry.maxAttempts = 0 ∧ e = .retriesExhausted 0 "no error captured")) := by
  obtain ⟨s,call,e,h,hc,he⟩ := failedDial_fails
  exact ⟨s,call,e,h,hc,he,errors_classified plainPlatform singleAttempt h hc he⟩

end GrpcQuic.Client
