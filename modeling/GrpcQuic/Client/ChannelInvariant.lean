import GrpcQuic.Client.ChannelCalls
import GrpcQuic.Client.SessionReuse

/-! # The calls of a channel and their pool callers

A call is in the pool with at most one caller, that of its present attempt, and
only as long as its future waits there. What it gets from the pool is installed
or a text.
-/
namespace GrpcQuic.Client
open Transition ConcurrencyLimit

variable {Addr : Type*}

/-- How a call ends: with a text from the pool or a stream, with the verdict on its
head, or, with no attempts at all, with no error of its own. -/
def Reported (p : Platform) (ch : QuicChannel Addr) (head : RequestHead) : Except ClientError ResponseHead → Prop
  | .ok _ => True
  | .error e => (∃ m, e = .streamIo m) ∨ (∃ m, e = .requestBuild m ∧ p.build head = .error m) ∨
      (ch.retry.maxAttempts = 0 ∧ e = .retriesExhausted 0 "no error captured")

structure CallInv (p : Platform) (ch : QuicChannel Addr) (pool : Pool.State Addr (ℕ × ℕ)) (c : ℕ)
    (req : Rpc.Request) (cs : Call.State) (dropped : Bool) : Prop where
  made : ∃ parts body polled deadline, Timeout.deadline p.overflowChecks polled parts.headers = .ok deadline ∧
    req = ch.request parts body deadline
  start : cs.phase = .acquiring → cs.attempt = 0 ∧ cs.lastError = none
  ahead : ∀ k, cs.attempt < k → pool.phase (c,k) = .idle
  unasked : cs.phase = .acquiring ∨ cs.phase = .sleeping → pool.phase (c,cs.attempt) = .idle
  tries : cs.phase = .sleeping ∨ cs.phase = .pooling → cs.attempt < ch.retry.maxAttempts
  asked : ∀ k, pool.phase (c,k) ≠ .idle → k < ch.retry.maxAttempts
  blocked : ∀ k a, pool.phase (c,k) = .locking a ∨ pool.phase (c,k) = .waiting a →
    a = ch.remote ∧ k = cs.attempt ∧ cs.phase = .pooling ∧ dropped = false
  unanswered : cs.phase = .pooling → dropped = false →
    pool.phase (c,cs.attempt) = .idle ∨ ∃ a, pool.phase (c,cs.attempt) = .locking a ∨
      pool.phase (c,cs.attempt) = .waiting a
  entry : ∀ e, cs.phase = .building e ∨ cs.phase = .sending e → pool.Installed ch.remote e
  failed : cs.phase = .invalidating → cs.lastError ≠ none
  lastError : ∀ e, cs.lastError = some e → ∃ m, e = .streamIo m
  result : ∀ res, cs.phase = .done res → Reported p ch req.call.h3Request res

variable {p : Platform} {ch : QuicChannel Addr} {pool pool' : Pool.State Addr (ℕ × ℕ)} {c : ℕ}
  {req : Rpc.Request} {cs cs' : Call.State} {dropped : Bool}

theorem callInv_init {parts : Call.RequestParts} {body : Body} {polled : ℕ} {deadline : Option ℕ}
    (hd : Timeout.deadline p.overflowChecks polled parts.headers = .ok deadline)
    (hidle : ∀ k, pool.phase (c,k) = .idle) :
    CallInv p ch pool c (ch.request parts body deadline) .init false := by
  refine ⟨⟨parts,body,polled,deadline,hd,rfl⟩,fun _ => ⟨rfl,rfl⟩,fun k _ => hidle k,fun _ => hidle 0,?_,
    fun k hk => (hk (hidle k)).elim,?_,by simp [Call.State.init],?_,by simp [Call.State.init],
    by simp [Call.State.init],by simp [Call.State.init]⟩
  · rintro (hp | hp) <;> cases hp
  · rintro k a (hk | hk) <;> cases (hidle k).symm.trans hk
  · rintro e (he | he) <;> cases he

theorem CallInv.policy (h : CallInv p ch pool c req cs dropped) : req.call.retry = ch.retry := by
  obtain ⟨parts,body,polled,deadline,-,rfl⟩ := h.made
  rfl

theorem CallInv.of_pool (h : CallInv p ch pool c req cs dropped) (hphase : ∀ k, pool'.phase (c,k) = pool.phase (c,k))
    (hinst : ∀ e, pool.Installed ch.remote e → pool'.Installed ch.remote e) :
    CallInv p ch pool' c req cs dropped := by
  refine ⟨h.made,h.start,fun k hk => ?_,fun hp => ?_,h.tries,fun k hk => ?_,fun k a hk => ?_,fun hp hd => ?_,
    fun e he => hinst e (h.entry e he),h.failed,h.lastError,h.result⟩
  · rw [hphase]
    exact h.ahead k hk
  · rw [hphase]
    exact h.unasked hp
  · rw [hphase] at hk
    exact h.asked k hk
  · rw [hphase] at hk
    exact h.blocked k a hk
  · rw [hphase]
    exact h.unanswered hp hd

def Outside (p : Platform) (ch : QuicChannel Addr) (pool : Pool.State Addr (ℕ × ℕ)) (head : RequestHead)
    (lastError : Option ClientError) : Call.Phase → Prop
  | .acquiring | .sleeping | .pooling => False
  | .building e | .sending e => pool.Installed ch.remote e
  | .awaitingResponse => True
  | .invalidating => lastError ≠ none
  | .done res => Reported p ch head res

theorem CallInv.outside (h : CallInv p ch pool c req cs dropped)
    (hahead : ∀ k, cs'.attempt < k → pool'.phase (c,k) = .idle)
    (hasked : ∀ k, pool'.phase (c,k) ≠ .idle → k < ch.retry.maxAttempts)
    (hfree : ∀ k a, ¬ (pool'.phase (c,k) = .locking a ∨ pool'.phase (c,k) = .waiting a))
    (hout : Outside p ch pool' req.call.h3Request cs'.lastError cs'.phase)
    (hlast : ∀ e, cs'.lastError = some e → ∃ m, e = .streamIo m) : CallInv p ch pool' c req cs' dropped := by
  have hna : cs'.phase ≠ .acquiring := fun hp => by rwa [hp] at hout
  have hns : cs'.phase ≠ .sleeping := fun hp => by rwa [hp] at hout
  have hnp : cs'.phase ≠ .pooling := fun hp => by rwa [hp] at hout
  refine ⟨h.made,fun hp => (hna hp).elim,hahead,?_,?_,hasked,fun k a hk => (hfree k a hk).elim,
    fun hp => (hnp hp).elim,?_,?_,hlast,?_⟩
  · rintro (hp | hp)
    · exact (hna hp).elim
    · exact (hns hp).elim
  · rintro (hp | hp)
    · exact (hns hp).elim
    · exact (hnp hp).elim
  · intro e hp
    rcases hp with hp | hp
    · rwa [hp] at hout
    · rwa [hp] at hout
  · intro hp
    rwa [hp] at hout
  · intro res hp
    rwa [hp] at hout

theorem CallInv.leave (h : CallInv p ch pool c req cs dropped) (hnp : cs.phase ≠ .pooling)
    (hatt : cs'.attempt = cs.attempt) (hout : Outside p ch pool req.call.h3Request cs'.lastError cs'.phase)
    (hlast : ∀ e, cs'.lastError = some e → ∃ m, e = .streamIo m) : CallInv p ch pool c req cs' dropped := by
  refine h.outside ?_ h.asked (fun k a hk => hnp (h.blocked k a hk).2.2.1) hout hlast
  rw [hatt]
  exact h.ahead

theorem CallInv.approach (h : CallInv p ch pool c req cs dropped) (hnp : cs.phase ≠ .pooling)
    (hphase : cs'.phase = .sleeping ∨ cs'.phase = .pooling)
    (hidle : ∀ j, cs'.attempt ≤ j → pool.phase (c,j) = .idle) (htries : cs'.attempt < ch.retry.maxAttempts)
    (hlast : cs'.lastError = cs.lastError) : CallInv p ch pool c req cs' dropped := by
  have hne (q : Call.Phase) (hs : q ≠ .sleeping) (hp : q ≠ .pooling) : cs'.phase ≠ q := by
    rintro rfl
    exact hphase.elim hs hp
  refine ⟨h.made,fun hp => (hne .acquiring (by simp) (by simp) hp).elim,fun j hj => hidle j (Nat.le_of_lt hj),
    fun _ => hidle _ le_rfl,fun _ => htries,h.asked,fun j a hj => (hnp (h.blocked j a hj).2.2.1).elim,
    fun _ _ => .inl (hidle _ le_rfl),?_,fun hp => (hne .invalidating (by simp) (by simp) hp).elim,?_,
    fun res hp => (hne (.done res) (by simp) (by simp) hp).elim⟩
  · rintro e (hp | hp)
    · exact (hne (.building e) (by simp) (by simp) hp).elim
    · exact (hne (.sending e) (by simp) (by simp) hp).elim
  · rw [hlast]
    exact h.lastError

theorem CallInv.enter (h : CallInv p ch pool c req cs dropped) (hnp : cs.phase ≠ .pooling) {k : ℕ}
    (hidle : ∀ j, k ≤ j → pool.phase (c,j) = .idle) (herr : cs.lastError = none → k = 0) :
    CallInv p ch pool c req (cs.enter req.call k) dropped := by
  have hretry := h.policy
  unfold Call.State.enter
  split
  · rename_i hk
    rw [hretry] at hk
    split
    · exact h.approach hnp (.inl rfl) hidle hk rfl
    · exact h.approach hnp (.inr rfl) hidle hk rfl
  · rename_i hk
    rw [hretry] at hk
    refine h.leave hnp rfl ?_ h.lastError
    cases hl : cs.lastError with
    | some e => exact .inl (h.lastError e hl)
    | none =>
      cases herr hl
      have hm : ch.retry.maxAttempts = 0 := by omega
      exact .inr (.inr ⟨hm,by rw [hretry,hm]; rfl⟩)

theorem CallInv.advance (h : CallInv p ch pool c req cs dropped) {e : Call.Event}
    (hst : Call.step req.call cs e = some cs') (he : ∀ r, e ≠ .pooled r) (ha : e ≠ .acquired false)
    (hb : ∀ r, e = .built r → r = p.build req.call.h3Request) : CallInv p ch pool c req cs' dropped := by
  cases e with
  | acquired permit =>
    cases hp : cs.phase <;> simp only [Call.step,hp,reduceCtorEq] at hst
    cases permit
    · exact (ha rfl).elim
    · cases hst
      obtain ⟨h0,-⟩ := h.start hp
      refine h.enter (by simp [hp]) (fun j _ => ?_) fun _ => rfl
      rcases Nat.eq_zero_or_pos j with rfl | hj
      · rw [← h0]
        exact h.unasked (.inl hp)
      · exact h.ahead j (by omega)
  | woke =>
    cases hp : cs.phase <;> simp only [Call.step,hp,reduceCtorEq] at hst
    cases hst
    refine h.approach (by simp [hp]) (.inr rfl) (fun j hj => ?_) (h.tries (.inl hp)) rfl
    rcases Nat.eq_or_lt_of_le hj with rfl | hj
    · exact h.unasked (.inr hp)
    · exact h.ahead j hj
  | pooled r => exact (he r rfl).elim
  | built r =>
    cases hp : cs.phase <;> simp only [Call.step,hp,reduceCtorEq] at hst
    have hr := hb r rfl
    cases r with
    | ok _ =>
      cases hst
      exact h.leave (by simp [hp]) rfl (h.entry _ (.inl hp)) h.lastError
    | error m =>
      cases hst
      exact h.leave (by simp [hp]) rfl (.inr (.inl ⟨m,rfl,hr.symm⟩)) h.lastError
  | sent r =>
    cases hp : cs.phase <;> simp only [Call.step,hp,reduceCtorEq] at hst
    cases r with
    | ok _ =>
      cases hst
      exact h.leave (by simp [hp]) rfl trivial h.lastError
    | error m =>
      cases hst
      refine h.leave (by simp [hp]) rfl (Option.some_ne_none _) ?_
      rintro e ⟨⟩
      exact ⟨_,rfl⟩
  | invalidated =>
    cases hp : cs.phase <;> simp only [Call.step,hp,reduceCtorEq] at hst
    cases hst
    exact h.enter (by simp [hp]) (fun j hj => h.ahead j hj) fun hl => (h.failed hp hl).elim
  | responded r =>
    cases hp : cs.phase <;> simp only [Call.step,hp,reduceCtorEq] at hst
    cases r with
    | ok head =>
      cases hst
      exact h.leave (by simp [hp]) rfl trivial h.lastError
    | error m =>
      cases hst
      exact h.leave (by simp [hp]) rfl (.inl ⟨m,rfl⟩) h.lastError

/-- The future asks the pool, and its caller moves on there. -/
theorem CallInv.inPool (h : CallInv p ch pool c req cs false) (hp : cs.phase = .pooling)
    (hothers : ∀ k, k ≠ cs.attempt → pool'.phase (c,k) = pool.phase (c,k))
    (hself : pool'.phase (c,cs.attempt) = .locking ch.remote ∨ pool'.phase (c,cs.attempt) = .waiting ch.remote)
    (hinst : ∀ e, pool.Installed ch.remote e → pool'.Installed ch.remote e) :
    CallInv p ch pool' c req cs false := by
  refine ⟨h.made,h.start,fun k hk => ?_,fun hp' => ?_,h.tries,fun k hk => ?_,fun k a hk => ?_,
    fun _ _ => .inr ⟨_,hself⟩,fun e he => hinst e (h.entry e he),h.failed,h.lastError,h.result⟩
  · rw [hothers k (by omega)]
    exact h.ahead k hk
  · rcases hp' with hp' | hp' <;> cases hp.symm.trans hp'
  · by_cases hka : k = cs.attempt
    · rw [hka]
      exact h.tries (.inr hp)
    · rw [hothers k hka] at hk
      exact h.asked k hk
  · by_cases hka : k = cs.attempt
    · subst hka
      refine ⟨?_,rfl,hp,rfl⟩
      rcases hself with hs | hs <;> rcases hk with hk | hk <;> cases hs.symm.trans hk
      · rfl
      · rfl
    · rw [hothers k hka] at hk
      exact (hka (h.blocked k a hk).2.1).elim

/-- The pool answers, and the future runs on with what it was handed. -/
theorem CallInv.resume (h : CallInv p ch pool c req cs false) (hp : cs.phase = .pooling)
    (hothers : ∀ k, k ≠ cs.attempt → pool'.phase (c,k) = pool.phase (c,k)) {reply : Pool.Reply}
    (hself : pool'.phase (c,cs.attempt) = .returned reply)
    {res : Pool.PoolResult} (hres : pool'.Handed ch.remote res) (hst : Call.step req.call cs (.pooled res) = some cs') :
    CallInv p ch pool' c req cs' false := by
  have hfree (k : ℕ) (a : Addr) : ¬ (pool'.phase (c,k) = .locking a ∨ pool'.phase (c,k) = .waiting a) := by
    intro hk
    by_cases hka : k = cs.attempt
    · subst hka
      rcases hk with hk | hk <;> cases hself.symm.trans hk
    · rw [hothers k hka] at hk
      exact hka (h.blocked k a hk).2.1
  have hahead (k : ℕ) (hk : cs.attempt < k) : pool'.phase (c,k) = .idle := by
    rw [hothers k (by omega)]
    exact h.ahead k hk
  have hasked (k : ℕ) (hk : pool'.phase (c,k) ≠ .idle) : k < ch.retry.maxAttempts := by
    by_cases hka : k = cs.attempt
    · rw [hka]
      exact h.tries (.inr hp)
    · rw [hothers k hka] at hk
      exact h.asked k hk
  simp only [Call.step,hp] at hst
  cases res with
  | ok entry =>
    cases hst
    exact h.outside hahead hasked hfree hres h.lastError
  | error e =>
    cases hst
    refine h.outside hahead hasked hfree (Option.some_ne_none _) ?_
    rintro e' ⟨⟩
    exact hres

/-- The future is dropped, and with it the receiver it may have been waiting on. -/
theorem CallInv.drop (h : CallInv p ch pool c req cs dropped)
    (hothers : ∀ k, k ≠ cs.attempt → pool'.phase (c,k) = pool.phase (c,k))
    (hself : pool'.phase (c,cs.attempt) = .cancelled ∧ pool.phase (c,cs.attempt) ≠ .idle ∨
      pool'.phase (c,cs.attempt) = pool.phase (c,cs.attempt) ∧
        ∀ a, ¬ (pool.phase (c,cs.attempt) = .locking a ∨ pool.phase (c,cs.attempt) = .waiting a))
    (hinst : ∀ e, pool.Installed ch.remote e → pool'.Installed ch.remote e) :
    CallInv p ch pool' c req cs true := by
  refine ⟨h.made,h.start,fun k hk => ?_,fun hp => ?_,h.tries,fun k hk => ?_,fun k a hk => ?_,by simp,
    fun e he => hinst e (h.entry e he),h.failed,h.lastError,h.result⟩
  · rw [hothers k (by omega)]
    exact h.ahead k hk
  · rcases hself with ⟨-,hne⟩ | ⟨hs,-⟩
    · exact (hne (h.unasked hp)).elim
    · rw [hs]
      exact h.unasked hp
  · by_cases hka : k = cs.attempt
    · subst hka
      rcases hself with ⟨-,hne⟩ | ⟨hs,-⟩
      · exact h.asked _ hne
      · exact h.asked _ (hs ▸ hk)
    · exact h.asked k (hothers k hka ▸ hk)
  · by_cases hka : k = cs.attempt
    · subst hka
      rcases hself with ⟨hs,-⟩ | ⟨hs,hno⟩
      · rw [hs] at hk
        rcases hk with hk | hk <;> cases hk
      · exact (hno a (hs ▸ hk)).elim
    · exact (hka (h.blocked k a (hothers k hka ▸ hk)).2.1).elim

end GrpcQuic.Client
