import GrpcQuic.Client.ChannelInvariant

/-! # What holds of a channel throughout

The pool, the semaphore and the calls keep to each other: whatever the schedule,
who waits in the pool is a call that holds a permit, and what a call sends on is
a connection of the pool.
-/
namespace GrpcQuic.Rpc

/-- Only the clock moves the time of a call, and only the end of its future drops it. -/
theorem step_frame {req : Request} {s t : State} {l : Label} (h : step req s l = some t) (hl : ∀ n, l ≠ .tick n)
    (hd : l ≠ .timeout ∧ l ≠ .dropCall) : t.now = s.now ∧ t.dropped = s.dropped := by
  have hhalf {u : State} {f : RecvHalf → RecvHalf} (hu : s.mapHalf f = some u) :
      u.now = s.now ∧ u.dropped = s.dropped := by
    rcases mapHalf_cases hu with ⟨half,-,-,rfl⟩ | ⟨b,-,-,-,rfl⟩ <;> exact ⟨rfl,rfl⟩
  have habort (b : Bool) : (s.abortIf b).now = s.now ∧ (s.abortIf b).dropped = s.dropped := by
    cases b <;> exact ⟨rfl,rfl⟩
  rcases step_cases h with ⟨e,cs,rfl,-,-,rfl⟩ | ⟨he,-⟩ | ⟨m,f,f',rfl,-,-,-,rfl⟩ | ⟨d,u,rfl,hu,rfl⟩ |
    ⟨e,u,rfl,hu,rfl⟩ | ⟨k,rfl,-⟩ | ⟨b,rfl,-,rfl⟩ | ⟨b,rfl,-,rfl⟩
  · unfold State.onEvent
    split
    · exact ⟨rfl,rfl⟩
    · split <;> exact ⟨rfl,rfl⟩
    · exact ⟨rfl,rfl⟩
    · exact ⟨rfl,rfl⟩
  · rcases he with he | he
    · exact (hd.1 he).elim
    · exact (hd.2 he).elim
  · exact ⟨rfl,rfl⟩
  · have hu' := hhalf hu
    exact hu'
  · have hu' := hhalf hu
    exact hu'
  · exact (hl k rfl).elim
  · exact habort _
  · exact habort _

end GrpcQuic.Rpc

namespace GrpcQuic.Call

/-- Only the return of the pool leads a call to its request. -/
theorem step_ne_building {cfg : Config} {s t : State} {e : Event} (h : step cfg s e = some t)
    (he : ∀ r, e ≠ .pooled r) (entry : Pool.PoolEntry) : t.phase ≠ .building entry := by
  have hnext := step_phase h
  generalize s.phase = p at hnext
  generalize t.phase = p' at hnext ⊢
  cases hnext with
  | admitted p' hp => exact hp.ne_of nofun nofun nofun
  | invalidated p' hp => exact hp.ne_of nofun nofun nofun
  | pooled entry' => exact (he _ rfl).elim
  | _ => exact nofun

end GrpcQuic.Call

namespace GrpcQuic.Client
open Transition ConcurrencyLimit
variable {Addr : Type*} [DecidableEq Addr] {p : Platform} {ch : QuicChannel Addr} {s t : State Addr}

structure ChannelInv (p : Platform) (ch : QuicChannel Addr) (s : State Addr) : Prop where
  pool : Pool.Inv s.pool
  limit : LimitInv ch.concurrencyLimit s.limit
  traced : ∀ call ∈ s.limit.calls, call.Traced
  call : ∀ c call, s.call c = some call → CallInv p ch s.pool c call.req call.rpc.call call.rpc.dropped
  absent : ∀ c, s.call c = none → ∀ k, s.pool.phase (c,k) = .idle
  clock : ∀ c call, s.call c = some call → call.rpc.now = s.now
  unbuilt : ∀ c call, s.call c = some call → ∀ e, call.rpc.call.phase ≠ .building e

omit [DecidableEq Addr] in
theorem channelInv_init (p : Platform) (ch : QuicChannel Addr) : ChannelInv p ch ch.init := by
  refine ⟨⟨Pool.slotInv_init,Pool.senderInv_init⟩,limitInv_init _,fun _ hc => (List.not_mem_nil hc).elim,?_,
    fun _ _ _ => rfl,?_,?_⟩
  · intro c call hc
    cases hc
  · intro c call hc
    cases hc
  · intro c call hc
    cases hc

theorem Parts.components (hparts : Parts s t) (h : ChannelInv p ch s) :
    Pool.Inv t.pool ∧ LimitInv ch.concurrencyLimit t.limit ∧ ∀ call ∈ t.limit.calls, call.Traced := by
  obtain ⟨⟨ps,hps⟩,ls,hls⟩ := hparts
  refine ⟨exec_invariant (fun _ _ _ hI hst => Pool.step_inv hI hst) h.pool hps,?_,?_⟩
  · exact exec_invariant (fun _ _ _ hI hst => step_limitInv hI hst) h.limit hls
  · exact exec_invariant (I := fun s => ∀ call ∈ s.calls, call.Traced)
      (fun _ _ _ hI hst => step_traced hI hst) h.traced hls

theorem installed_kept (h : Pool.Inv s.pool) {l : Pool.Label Addr (ℕ × ℕ)} {pool : Pool.State Addr (ℕ × ℕ)}
    (hst : Pool.step s.pool l = some pool) (a : Addr) (e : Pool.PoolEntry) (hi : s.pool.Installed a e) :
    pool.Installed a e := by
  obtain ⟨k,hk⟩ := hi
  exact ⟨k,Pool.step_completed h.slots hst hk⟩

/-- A step of one call: the others and their callers stay as they are. -/
theorem ChannelInv.update (h : ChannelInv p ch s) (hparts : Parts s t) (hnow : t.now = s.now) {c : ℕ}
    {call call' : ChannelCall} (hc : s.call c = some call) (hset : t.limit.calls = s.limit.calls.set c call')
    (hn : call'.rpc.now = call.rpc.now) (hothers : ∀ d, d ≠ c → ∀ k, t.pool.phase (d,k) = s.pool.phase (d,k))
    (hinst : ∀ e, s.pool.Installed ch.remote e → t.pool.Installed ch.remote e)
    (hcall : CallInv p ch t.pool c call'.req call'.rpc.call call'.rpc.dropped)
    (hbuilt : ∀ e, call'.rpc.call.phase ≠ .building e) : ChannelInv p ch t := by
  have hlt := (List.getElem?_eq_some_iff.mp hc).1
  have hself : t.call c = some call' := by
    unfold State.call
    rw [hset]
    exact List.getElem?_set_self hlt
  have hother (d : ℕ) (hd : d ≠ c) : t.call d = s.call d := by
    unfold State.call
    rw [hset]
    exact List.getElem?_set_ne hd.symm
  obtain ⟨hpool,hlimit,htraced⟩ := hparts.components h
  refine ⟨hpool,hlimit,htraced,fun d u hu => ?_,fun d hd k => ?_,fun d u hu => ?_,fun d u hu => ?_⟩
  · by_cases hdc : d = c
    · subst hdc
      cases hself.symm.trans hu
      exact hcall
    · exact (h.call d u ((hother d hdc).symm.trans hu)).of_pool (hothers d hdc) hinst
  · have hdc : d ≠ c := by
      rintro rfl
      cases hself.symm.trans hd
    rw [hothers d hdc]
    exact h.absent d ((hother d hdc).symm.trans hd) k
  · by_cases hdc : d = c
    · subst hdc
      cases hself.symm.trans hu
      rw [hn,hnow]
      exact h.clock d call hc
    · rw [hnow]
      exact h.clock d u ((hother d hdc).symm.trans hu)
  · by_cases hdc : d = c
    · subst hdc
      cases hself.symm.trans hu
      exact hbuilt
    · exact h.unbuilt d u ((hother d hdc).symm.trans hu)

theorem ChannelInv.background (h : ChannelInv p ch s) {l : Pool.Label Addr (ℕ × ℕ)} (hl : l.caller = none)
    (hst : s.poolStep l = some t) : ChannelInv p ch t := by
  obtain ⟨pool,hpool,rfl⟩ := poolStep_eq_some.mp hst
  have hphase (i : ℕ × ℕ) : pool.phase i = s.pool.phase i :=
    Pool.step_phase hpool (by rw [hl]; exact nofun)
  refine ⟨Pool.step_inv h.pool hpool,h.limit,h.traced,fun c call hc => ?_,fun c hc k => ?_,h.clock,h.unbuilt⟩
  · exact (h.call c call hc).of_pool (fun k => hphase (c,k)) (installed_kept h.pool hpool ch.remote)
  · exact (hphase (c,k)).trans (h.absent c hc k)

omit [DecidableEq Addr] in
theorem callSteps_cases {c : ℕ} {ls : List Rpc.Label} (hne : ls ≠ []) (h : s.callSteps c ls = some t) :
    ∃ call call' limit, s.call c = some call ∧ exec (Rpc.step call.req) call.rpc ls = some call'.rpc ∧
      call'.req = call.req ∧ limit.calls = s.limit.calls.set c call' ∧ t = { s with limit } := by
  obtain ⟨limit,hl,rfl⟩ := limitSteps_eq_some.mp h
  obtain ⟨call,hc⟩ := exec_rpc_some hne hl
  obtain ⟨call',hrun,hreq,hset⟩ := exec_rpc_cases hc hl
  exact ⟨call,call',limit,hc,hrun,hreq,hset,rfl⟩

theorem callSteps_parts {c : ℕ} {ls : List Rpc.Label} (h : s.callSteps c ls = some t) : Parts s t := by
  obtain ⟨limit,hl,rfl⟩ := limitSteps_eq_some.mp h
  exact ⟨⟨[],rfl⟩,_,hl⟩

theorem ChannelInv.callStep (h : ChannelInv p ch s) {c : ℕ} {m : Rpc.Label} (hm : ∀ n, m ≠ .tick n)
    (hdrop : m ≠ .timeout ∧ m ≠ .dropCall)
    (he : ∀ e, m = .call e → (∀ r, e ≠ .pooled r) ∧ (∀ r, e ≠ .built r) ∧ e ≠ .acquired false)
    (hst : s.callSteps c [m] = some t) : ChannelInv p ch t := by
  have hparts := callSteps_parts hst
  obtain ⟨call,call',limit,hc,hrun,hreq,hset,rfl⟩ := callSteps_cases (List.cons_ne_nil m []) hst
  obtain ⟨rpc,hrpc,hlast⟩ := exec_cons_eq_some.mp hrun
  cases hlast
  obtain ⟨hnow,hdropped⟩ := Rpc.step_frame hrpc hm hdrop
  have hI := h.call c call hc
  refine h.update hparts rfl hc hset hnow (fun _ _ _ => rfl) (fun _ he => he) ?_ ?_
  · rw [hreq,hdropped]
    rcases rpc_step_frame hrpc with ⟨e,rfl,-,-,hcs⟩ | ⟨-,hcall,-⟩
    · obtain ⟨hp,hb,ha⟩ := he e rfl
      exact hI.advance hcs hp ha fun r hr => (hb r hr).elim
    · rw [hcall]
      exact hI
  · rcases rpc_step_frame hrpc with ⟨e,rfl,-,-,hcs⟩ | ⟨-,hcall,-⟩
    · exact Call.step_ne_building hcs (he e rfl).1
    · rw [hcall]
      exact h.unbuilt c call hc

theorem ChannelInv.own (h : ChannelInv p ch s) {c : ℕ} {m : Rpc.Label} (hm : ownStep m = true)
    (hst : s.callSteps c [m] = some t) : ChannelInv p ch t := by
  refine h.callStep ?_ ⟨?_,?_⟩ ?_ hst
  · rintro n rfl
    cases hm
  · rintro rfl
    cases hm
  · rintro rfl
    cases hm
  · rintro e rfl
    refine ⟨?_,?_,?_⟩
    · rintro r rfl
      cases hm
    · rintro r rfl
      cases hm
    · rintro rfl
      cases hm

/-- The invalidation of a call runs its own step with one of the pool. -/
theorem ChannelInv.invalidate (h : ChannelInv p ch s) {c : ℕ}
    (hst : ch.step p s (.invalidate c) = some t) : ChannelInv p ch t := by
  obtain ⟨u,hu,hst⟩ := Option.bind_eq_some_iff.mp hst
  refine (h.background rfl hu).callStep (m := .call .invalidated) (fun _ => by simp) ⟨by simp,by simp⟩ ?_ hst
  rintro e ⟨⟩
  exact ⟨fun _ => by simp,fun _ => by simp,by simp⟩

omit [DecidableEq Addr] in
theorem caller_eq {c : ℕ} {call : ChannelCall} (hc : s.call c = some call) :
    s.caller c = (c,call.rpc.call.attempt) := by
  simp only [State.caller,hc]

theorem ChannelInv.callerStep (h : ChannelInv p ch s) {c : ℕ} {call : ChannelCall} (hc : s.call c = some call)
    (hp : call.rpc.call.phase = .pooling) (hd : call.rpc.dropped = false) {l : Pool.Label Addr (ℕ × ℕ)}
    (hl : l.caller = some (s.caller c)) {pool : Pool.State Addr (ℕ × ℕ)} (hst : Pool.step s.pool l = some pool)
    (hself : pool.phase (s.caller c) = .locking ch.remote ∨ pool.phase (s.caller c) = .waiting ch.remote) :
    ChannelInv p ch { s with pool } := by
  rw [caller_eq hc] at hl hself
  have hothers (i : ℕ × ℕ) (hi : i ≠ (c,call.rpc.call.attempt)) : pool.phase i = s.pool.phase i :=
    Pool.step_phase hst (by rw [hl]; exact fun he => hi (Option.some.inj he).symm)
  have hI := h.call c call hc
  rw [hd] at hI
  refine h.update ⟨⟨[l],exec_cons_eq_some.mpr ⟨pool,hst,rfl⟩⟩,[],rfl⟩ rfl hc ?_ rfl ?_
    (installed_kept h.pool hst ch.remote) ?_ (h.unbuilt c call hc)
  · obtain ⟨hlt,rfl⟩ := List.getElem?_eq_some_iff.mp hc
    exact (List.set_getElem_self hlt).symm
  · intro d hdc k
    exact hothers (d,k) fun he => hdc (congrArg Prod.fst he)
  · rw [hd]
    exact hI.inPool hp (fun k hk => hothers (c,k) fun he => hk (congrArg Prod.snd he)) hself
      (installed_kept h.pool hst ch.remote)

/-- What the pool hands out moves the call on to its next await. -/
theorem ChannelInv.handed (h : ChannelInv p ch s) {c : ℕ} {call : ChannelCall} (hc : s.call c = some call)
    (hp : call.rpc.call.phase = .pooling) (hd : call.rpc.dropped = false) {l : Pool.Label Addr (ℕ × ℕ)}
    (hl : l.caller = some (s.caller c)) {pool : Pool.State Addr (ℕ × ℕ)} (hst : Pool.step s.pool l = some pool)
    {reply : Pool.Reply} (hself : pool.phase (s.caller c) = .returned reply)
    (hres : pool.Handed ch.remote reply.result)
    (ht : { s with pool }.resume p c = some t) : ChannelInv p ch t := by
  have hcaller : { s with pool }.caller c = s.caller c := rfl
  have hinst := installed_kept h.pool hst ch.remote
  rcases resume_cases ht with ⟨reply',call₀,hr,hc₀,hcalls⟩ | ⟨hno,-⟩
  · cases hc.symm.trans hc₀
    rw [hcaller,hself] at hr
    cases hr
    obtain ⟨call₁,call',limit,hc₁,hrun,hreq,hset,rfl⟩ := callSteps_cases
      (by cases reply.result <;> exact List.cons_ne_nil _ _) hcalls
    cases hc.symm.trans hc₁
    obtain ⟨ms,hms⟩ := (callSteps_parts hcalls).limit
    rw [caller_eq hc] at hl hself
    have hothers (i : ℕ × ℕ) (hi : i ≠ (c,call.rpc.call.attempt)) : pool.phase i = s.pool.phase i :=
      Pool.step_phase hst (by rw [hl]; exact fun he => hi (Option.some.inj he).symm)
    have hI := h.call c call hc
    rw [hd] at hI
    have hpooled {rpc : Rpc.State} (hrpc : Rpc.step call.req call.rpc (.call (.pooled reply.result)) = some rpc) :
        CallInv p ch pool c call.req rpc.call false ∧ rpc.now = call.rpc.now ∧ rpc.dropped = false := by
      obtain ⟨hnow,hdropped⟩ := Rpc.step_frame hrpc (fun _ => by simp) ⟨by simp,by simp⟩
      rcases rpc_step_frame hrpc with ⟨e,he,-,-,hcs⟩ | ⟨hno,-⟩
      · cases he
        refine ⟨?_,hnow,hdropped.trans hd⟩
        exact hI.resume hp (fun k hk => hothers (c,k) fun he => hk (congrArg Prod.snd he)) hself hres hcs
      · exact (hno _ rfl).elim
    have hnext : CallInv p ch pool c call.req call'.rpc.call call'.rpc.dropped ∧ call'.rpc.now = call.rpc.now ∧
        ∀ e, call'.rpc.call.phase ≠ .building e := by
      cases hres' : reply.result with
      | error e =>
        rw [hres'] at hrun hpooled
        obtain ⟨rpc,hrpc,hlast⟩ := exec_cons_eq_some.mp hrun
        cases hlast
        obtain ⟨hcall,hnow,hdropped⟩ := hpooled hrpc
        rw [hdropped]
        refine ⟨hcall,hnow,fun e' he' => ?_⟩
        rcases rpc_step_frame hrpc with ⟨e,he,-,-,hcs⟩ | ⟨hno,-⟩
        · cases he
          simp only [Call.step,hp] at hcs
          rw [← Option.some.inj hcs] at he'
          cases he'
        · exact (hno _ rfl).elim
      | ok entry =>
        rw [hres'] at hrun hpooled
        obtain ⟨rpc,hrpc,hrest⟩ := exec_cons_eq_some.mp hrun
        obtain ⟨rpc',hrpc',hlast⟩ := exec_cons_eq_some.mp hrest
        cases hlast
        obtain ⟨hcall,hnow,hdropped⟩ := hpooled hrpc
        obtain ⟨hnow',hdropped'⟩ := Rpc.step_frame hrpc' (fun _ => by simp) ⟨by simp,by simp⟩
        rcases rpc_step_frame hrpc' with ⟨e,he,-,-,hcs⟩ | ⟨hno,-⟩
        · cases he
          refine ⟨?_,hnow'.trans hnow,Call.step_ne_building hcs fun _ => by simp⟩
          rw [hdropped',hdropped]
          exact hcall.advance hcs (by simp) (by simp) (by simp)
        · exact (hno _ rfl).elim
    refine h.update ⟨⟨[l],exec_cons_eq_some.mpr ⟨pool,hst,rfl⟩⟩,ms,hms⟩ rfl hc hset hnext.2.1 ?_ hinst ?_ hnext.2.2
    · intro d hdc k
      exact hothers (d,k) fun he => hdc (congrArg Prod.fst he)
    · rw [hreq]
      exact hnext.1
  · have hn := hno reply (by rw [hcaller]; exact hself)
    cases hc.symm.trans hn

omit [DecidableEq Addr] in
/-- A caller of the pool that has not returned belongs to a live call. -/
theorem ChannelInv.blocked (h : ChannelInv p ch s) {c k : ℕ} {a : Addr}
    (hb : s.pool.phase (c,k) = .locking a ∨ s.pool.phase (c,k) = .waiting a) :
    ∃ call, s.call c = some call ∧ a = ch.remote ∧ k = call.rpc.call.attempt ∧
      call.rpc.call.phase = .pooling ∧ call.rpc.dropped = false := by
  cases hc : s.call c with
  | none =>
    have hidle := h.absent c hc k
    rcases hb with hb | hb <;> cases hidle.symm.trans hb
  | some call => exact ⟨call,rfl,(h.call c call hc).blocked k a hb⟩

theorem ChannelInv.lookup (h : ChannelInv p ch s) {c : ℕ} (hst : ch.step p s (.lookup c) = some t) :
    ChannelInv p ch t := by
  obtain ⟨u,hu,ht⟩ := Option.bind_eq_some_iff.mp hst
  obtain ⟨pool,hpool,rfl⟩ := poolStep_eq_some.mp hu
  obtain ⟨a,hlock,hnext⟩ := Pool.lookup_returns h.pool hpool
  obtain ⟨call,hc,rfl,-,hp,hd⟩ := h.blocked (.inl hlock)
  rcases hnext with hwait | ⟨reply,hret,hres⟩
  · have hself : { s with pool }.resume p c = some { s with pool } := by
      unfold State.resume
      split
      · rename_i reply _ hr _
        cases hwait.symm.trans hr
      · rfl
    cases hself.symm.trans ht
    exact h.callerStep hc hp hd rfl hpool (.inr hwait)
  · exact h.handed hc hp hd rfl hpool hret hres ht

theorem ChannelInv.receive (h : ChannelInv p ch s) {c : ℕ} (hst : ch.step p s (.receive c) = some t) :
    ChannelInv p ch t := by
  obtain ⟨u,hu,ht⟩ := Option.bind_eq_some_iff.mp hst
  obtain ⟨pool,hpool,rfl⟩ := poolStep_eq_some.mp hu
  obtain ⟨a,reply,hwait,hret,hres⟩ := Pool.receive_returns h.pool hpool
  obtain ⟨call,hc,rfl,-,hp,hd⟩ := h.blocked (.inr hwait)
  exact h.handed hc hp hd rfl hpool hret hres ht

theorem ChannelInv.enter (h : ChannelInv p ch s) {c : ℕ} (hst : ch.step p s (.enter c) = some t) :
    ChannelInv p ch t := by
  simp only [QuicChannel.step] at hst
  split at hst
  · rename_i call hc
    split at hst
    · rename_i hpend hp
      obtain ⟨pool,hpool,rfl⟩ := poolStep_eq_some.mp hst
      refine h.callerStep hc hp ((Rpc.pending_iff _).mp hpend).1 rfl hpool (.inl ?_)
      obtain ⟨-,rfl⟩ := Pool.step_enter hpool
      exact Function.update_self ..
    · cases hst
  · cases hst

/-- The end of a future cancels its caller, if that one still waits. -/
theorem ChannelInv.abandon (h : ChannelInv p ch s) {c : ℕ} {m : Rpc.Label} (hm : m = .timeout ∨ m = .dropCall)
    (hparts : Parts s t) (hst : s.abandon c m = some t) : ChannelInv p ch t := by
  obtain ⟨u,hu,rfl⟩ := Option.map_eq_some_iff.mp hst
  obtain ⟨call,call',limit,hc,hrun,hreq,hset,rfl⟩ := callSteps_cases (List.cons_ne_nil m []) hu
  obtain ⟨rpc,hrpc,hlast⟩ := exec_cons_eq_some.mp hrun
  cases hlast
  have hdrop : call'.rpc = call.rpc.dropCall := by
    rcases Rpc.step_cases hrpc with ⟨e,cs,rfl,-⟩ | ⟨-,-,hd⟩ | ⟨f,-,-,rfl,-⟩ | ⟨d,v,rfl,-⟩ | ⟨e,v,rfl,-⟩ | ⟨n,rfl,-⟩ |
      ⟨b,rfl,-⟩ | ⟨b,rfl,-⟩
    · rcases hm with hm | hm <;> cases hm
    · exact hd
    all_goals rcases hm with hm | hm <;> cases hm
  have hI := h.call c call hc
  rw [caller_eq hc] at hparts ⊢
  have hcancel : (∀ i, i ≠ (c,call.rpc.call.attempt) →
        ((Pool.step s.pool (.cancel (c,call.rpc.call.attempt))).getD s.pool).phase i = s.pool.phase i) ∧
      (((Pool.step s.pool (.cancel (c,call.rpc.call.attempt))).getD s.pool).phase (c,call.rpc.call.attempt) = .cancelled ∧
          s.pool.phase (c,call.rpc.call.attempt) ≠ .idle ∨
        ((Pool.step s.pool (.cancel (c,call.rpc.call.attempt))).getD s.pool).phase (c,call.rpc.call.attempt) =
            s.pool.phase (c,call.rpc.call.attempt) ∧
          ∀ a, ¬ (s.pool.phase (c,call.rpc.call.attempt) = .locking a ∨
            s.pool.phase (c,call.rpc.call.attempt) = .waiting a)) ∧
      ∀ e, s.pool.Installed ch.remote e →
        ((Pool.step s.pool (.cancel (c,call.rpc.call.attempt))).getD s.pool).Installed ch.remote e := by
    cases hp : Pool.step s.pool (.cancel (c,call.rpc.call.attempt)) with
    | none =>
      refine ⟨fun _ _ => rfl,.inr ⟨rfl,fun a ha => ?_⟩,fun _ he => he⟩
      simp only [Pool.step] at hp
      rcases ha with ha | ha <;> rw [ha] at hp <;> cases hp
    | some pool =>
      refine ⟨fun i hi => Pool.step_phase hp fun he => hi (Option.some.inj he).symm,.inl ?_,
        installed_kept h.pool hp ch.remote⟩
      obtain ⟨hb,rfl⟩ := Pool.step_cancel hp
      refine ⟨Function.update_self ..,fun hi => ?_⟩
      rcases hb with ⟨a,hb⟩ | ⟨a,hb⟩ <;> cases hb.symm.trans hi
  obtain ⟨hothers,hself,hinst⟩ := hcancel
  refine h.update hparts rfl hc hset (by rw [hdrop]; rfl) ?_ hinst ?_ (by rw [hdrop]; exact h.unbuilt c call hc)
  · intro d hdc k
    exact hothers (d,k) fun he => hdc (congrArg Prod.fst he)
  · rw [hreq,hdrop]
    exact hI.drop (fun k hk => hothers (c,k) fun he => hk (congrArg Prod.snd he)) hself hinst

theorem ChannelInv.open (h : ChannelInv p ch s) {parts : Call.RequestParts} {body : Body}
    (hst : ch.step p s (.call parts body) = some t) : ChannelInv p ch t := by
  have hparts := step_parts hst
  simp only [QuicChannel.step] at hst
  split at hst
  · rename_i deadline hd
    obtain ⟨limit,hl,rfl⟩ := limitSteps_eq_some.mp hst
    obtain ⟨u,hu,hrest⟩ := exec_cons_eq_some.mp hl
    obtain ⟨v,hv,hlast⟩ := exec_cons_eq_some.mp hrest
    cases hu
    cases hlast
    obtain ⟨call,call',hc,hrpc,hreq,hset⟩ := step_rpc_cases hv
    have hnew : call = .new (ch.request parts body deadline) := by
      have hget : (s.limit.calls ++ [ChannelCall.new (ch.request parts body deadline)])[s.limit.calls.length]? =
          some (.new (ch.request parts body deadline)) := List.getElem?_concat_length
      exact Option.some.inj (hc.symm.trans hget)
    subst hnew
    have hrpc' : call'.rpc = { Rpc.State.init with now := 0 + s.now } := (Option.some.inj hrpc).symm
    have hcalls (d : ℕ) : ({ s with limit } : State Addr).call d =
        if d = s.limit.calls.length then some call' else s.call d := by
      unfold State.call
      dsimp only
      rw [hset]
      dsimp only
      split
      · rename_i hdl
        rw [hdl,List.getElem?_set_self (by simp)]
      · rename_i hdl
        rw [List.getElem?_set_ne (Ne.symm hdl)]
        rcases Nat.lt_or_ge d s.limit.calls.length with hlt | hge
        · exact List.getElem?_append_left hlt
        · have hgt : (s.limit.calls ++ [ChannelCall.new (ch.request parts body deadline)]).length ≤ d := by
            rw [List.length_append,List.length_singleton]
            omega
          rw [List.getElem?_eq_none hgt,List.getElem?_eq_none hge]
    have hidle (k : ℕ) : s.pool.phase (s.limit.calls.length,k) = .idle :=
      h.absent _ (List.getElem?_eq_none le_rfl) k
    obtain ⟨hpool,hlimit,htraced⟩ := hparts.components h
    refine ⟨hpool,hlimit,htraced,fun d w hw => ?_,fun d hd k => ?_,fun d w hw => ?_,fun d w hw => ?_⟩
    · rw [hcalls] at hw
      split at hw
      · rename_i hdl
        cases hw
        subst hdl
        rw [hreq,hrpc']
        exact callInv_init hd hidle
      · exact h.call d w hw
    · rw [hcalls] at hd
      split at hd
      · cases hd
      · exact h.absent d hd k
    · rw [hcalls] at hw
      split at hw
      · cases hw
        rw [hrpc']
        exact Nat.zero_add s.now
      · exact h.clock d w hw
    · rw [hcalls] at hw
      split at hw
      · cases hw
        rw [hrpc']
        simp [Rpc.State.init,Call.State.init]
      · exact h.unbuilt d w hw
  · cases hst

theorem ChannelInv.tick (h : ChannelInv p ch s) {n : ℕ} (hst : ch.step p s (.tick n) = some t) :
    ChannelInv p ch t := by
  have hparts := step_parts hst
  obtain ⟨u,hu,rfl⟩ := Option.map_eq_some_iff.mp hst
  obtain ⟨limit,hl,rfl⟩ := limitSteps_eq_some.mp hu
  obtain ⟨hlen,hall⟩ := exec_ticks le_rfl hl
  have hback {d : ℕ} {w : ChannelCall} (hw : limit.calls[d]? = some w) : ∃ call, s.call d = some call ∧
      w.req = call.req ∧ w.rpc = { call.rpc with now := call.rpc.now + n } := by
    have hlt : d < s.limit.calls.length := hlen ▸ (List.getElem?_eq_some_iff.mp hw).1
    obtain ⟨w',hw',hreq,hrpc⟩ := hall d _ (List.getElem?_eq_getElem hlt)
    cases hw.symm.trans hw'
    rw [if_pos hlt] at hrpc
    exact ⟨_,List.getElem?_eq_getElem hlt,hreq,hrpc⟩
  obtain ⟨hpool,hlimit,htraced⟩ := hparts.components h
  refine ⟨hpool,hlimit,htraced,fun d w hw => ?_,fun d hd k => ?_,fun d w hw => ?_,fun d w hw => ?_⟩
  · obtain ⟨call,hc,hreq,hrpc⟩ := hback hw
    rw [hreq,hrpc]
    exact h.call d call hc
  · refine h.absent d (List.getElem?_eq_none ?_) k
    rw [← hlen]
    exact List.getElem?_eq_none_iff.mp hd
  · obtain ⟨call,hc,-,hrpc⟩ := hback hw
    rw [hrpc]
    exact congrArg (· + n) (h.clock d call hc)
  · obtain ⟨call,hc,-,hrpc⟩ := hback hw
    rw [hrpc]
    exact h.unbuilt d call hc

theorem step_channelInv (h : ChannelInv p ch s) {l : Label} (hst : ch.step p s l = some t) :
    ChannelInv p ch t := by
  cases l with
  | call parts body => exact h.open hst
  | acquire c =>
    refine h.callStep (m := .call (.acquired true)) (fun _ => nofun) ⟨nofun,nofun⟩ ?_ hst
    rintro e ⟨⟩
    exact ⟨fun _ => nofun,fun _ => nofun,nofun⟩
  | enter c => exact h.enter hst
  | lookup c => exact h.lookup hst
  | receive c => exact h.receive hst
  | invalidate c => exact h.invalidate hst
  | own c m =>
    simp only [QuicChannel.step] at hst
    split at hst
    · rename_i hm
      exact h.own hm hst
    · cases hst
  | timeout c => exact h.abandon (.inl rfl) (step_parts hst) hst
  | dropCall c => exact h.abandon (.inr rfl) (step_parts hst) hst
  | dial k d =>
    simp only [QuicChannel.step] at hst
    split at hst <;> exact h.background rfl hst
  | h3 k res =>
    simp only [QuicChannel.step] at hst
    split at hst <;> exact h.background rfl hst
  | complete k => exact h.background rfl hst
  | answer => exact h.background rfl hst
  | finish => exact h.background rfl hst
  | close k => exact h.background rfl hst
  | tick n => exact h.tick hst

theorem exec_channelInv {ls : List Label} (h : exec (ch.step p) ch.init ls = some s) : ChannelInv p ch s :=
  exec_invariant (fun _ _ _ hI hst => step_channelInv hI hst) (channelInv_init p ch) h

end GrpcQuic.Client
