import GrpcQuic.Client.ChannelSessions
import GrpcQuic.Client.PoolGuarantees

/-! # When a retry goes back to a session that failed it

The pool evicts by the state of the QUIC connection, a call retries on any
failure of the h3 session. The two agree exactly when the connection under a
failed session is closed by the time the call looks the entry up again.
-/
namespace GrpcQuic.Pool
open Channel
variable {Addr ι : Type*} [DecidableEq Addr] [DecidableEq ι] {s t : State Addr ι}

theorem background_frame {b : Background} (h : step s b.label = some t) :
    t.phase = s.phase ∧ t.joined = s.joined := by
  have hc := step_change h
  refine ⟨funext fun i => hc.phase i (by cases b <;> exact nofun),?_⟩
  rcases hc.joined with hj | ⟨i,a,k,hl,-⟩
  · exact hj
  · cases b <;> cases hl

/-- What a connect task produced is never revised. -/
theorem step_completed (hinv : SlotInv s) {l : Label Addr ι} (h : step s l = some t) {k : ℕ} {a : Addr}
    {res : PoolResult} (hk : s.tasks k = some ⟨a,.completed res⟩) :
    t.tasks k = some ⟨a,.completed res⟩ := by
  refine step_task_kept h (hinv.fresh _ le_rfl) (fun p' hm => ?_) hk
  cases hm

end GrpcQuic.Pool

namespace GrpcQuic.Call
variable {cfg : Config} {s t : State} {e : Event}

/-- Only a built request leads to `send_request`. -/
theorem step_ne_sending (h : step cfg s e = some t) (he : ∀ r, e ≠ .built r) (entry : Pool.PoolEntry) :
    t.phase ≠ .sending entry := by
  have hnext := step_phase h
  generalize s.phase = p at hnext
  generalize t.phase = p' at hnext ⊢
  cases hnext with
  | admitted p' hp => exact hp.ne_of nofun nofun nofun
  | invalidated p' hp => exact hp.ne_of nofun nofun nofun
  | built entry' => exact (he _ rfl).elim
  | _ => exact nofun

theorem ne_pooling_of_step (h : step cfg s e = some t) (he : ∀ r, e ≠ .pooled r) :
    s.phase ≠ .pooling := by
  intro hp
  have hnext := step_phase h
  rw [hp] at hnext
  generalize t.phase = p' at hnext
  cases hnext <;> exact he _ rfl

end GrpcQuic.Call

namespace GrpcQuic.Channel
open Transition Pool
variable {Addr : Type*} [DecidableEq Addr] {ch : QuicChannel Addr} {s t : State Addr}

def Usable (ch : QuicChannel Addr) (s : State Addr) (c : ℕ) (e : PoolEntry) : Prop :=
  s.pool.tasks e.quic.stableId = some ⟨ch.remote,.completed (.ok e)⟩ ∧
    ch.build (ch.config c).h3Request = .ok ()

structure SessionInv (ch : QuicChannel Addr) (s : State Addr) : Prop where
  pool : Pool.Inv s.pool
  failed : ∀ c, ∀ e ∈ s.failedOn c, Usable ch s c e
  sending : ∀ c e, (s.call c).phase = .sending e → Usable ch s c e
  blocked : ∀ c n a, s.pool.phase (c,n) = .locking a ∨ s.pool.phase (c,n) = .waiting a →
    a = ch.remote ∧ n = (s.call c).attempt ∧ (s.call c).phase = .pooling
  fresh : ∀ c n a k, s.pool.phase (c,n) = .waiting a → s.pool.joined (c,n) = some (a,k) →
    ∀ e ∈ s.failedOn c, e.quic.stableId ≠ k

omit [DecidableEq Addr] in
theorem sessionInv_init : SessionInv ch State.init where
  pool := ⟨slotInv_init,senderInv_init⟩
  failed := nofun
  sending := nofun
  blocked := by simp [State.init,Pool.State.init]
  fresh := nofun

omit [DecidableEq Addr] in
theorem SessionInv.unblocked (h : SessionInv ch s) {c : ℕ} (hc : (s.call c).phase ≠ .pooling) (n : ℕ)
    (a : Addr) : s.pool.phase (c,n) ≠ .locking a ∧ s.pool.phase (c,n) ≠ .waiting a :=
  ⟨fun hp => hc (h.blocked c n a (.inl hp)).2.2,fun hp => hc (h.blocked c n a (.inr hp)).2.2⟩

omit [DecidableEq Addr] in
theorem SessionInv.setCall (h : SessionInv ch s) {c : ℕ} {cs : Call.State}
    (hc : (s.call c).phase ≠ .pooling) (hsend : ∀ e, cs.phase ≠ .sending e) :
    SessionInv ch (s.setCall c cs) := by
  refine ⟨h.pool,h.failed,?_,?_,h.fresh⟩
  · intro d e hd
    by_cases hdc : d = c
    · subst hdc
      exact (hsend e (by simpa only [State.setCall,Function.update_self] using hd)).elim
    · exact h.sending d e (by simpa only [State.setCall,Function.update_of_ne hdc] using hd)
  · intro d n a hp
    by_cases hdc : d = c
    · subst hdc
      rcases hp with hp | hp
      · exact ((h.unblocked hc n a).1 hp).elim
      · exact ((h.unblocked hc n a).2 hp).elim
    · simpa only [State.setCall,Function.update_of_ne hdc] using h.blocked d n a hp

omit [DecidableEq Addr] in
theorem SessionInv.sendFailed (h : SessionInv ch s) {c : ℕ} {cs : Call.State} {entry : PoolEntry}
    (hc : (s.call c).phase = .sending entry) (hsend : ∀ e, cs.phase ≠ .sending e) :
    SessionInv ch { s.setCall c cs with
      failedOn := Function.update s.failedOn c (entry :: s.failedOn c) } := by
  have hnp : (s.call c).phase ≠ .pooling := by rw [hc]; exact nofun
  have hset := h.setCall hnp hsend
  refine ⟨h.pool,?_,hset.sending,hset.blocked,?_⟩
  · intro d e he
    by_cases hdc : d = c
    · subst hdc
      simp only [Function.update_self,List.mem_cons] at he
      rcases he with rfl | he
      · exact h.sending d e hc
      · exact h.failed d e he
    · exact h.failed d e (by simpa only [Function.update_of_ne hdc] using he)
  · intro d n a k hp hj e he
    by_cases hdc : d = c
    · subst hdc; exact ((h.unblocked hnp n a).2 hp).elim
    · exact h.fresh d n a k hp hj e (by simpa only [Function.update_of_ne hdc] using he)

theorem SessionInv.setPool (h : SessionInv ch s) {l : Pool.Label Addr (ℕ × ℕ)}
    {pool : Pool.State Addr (ℕ × ℕ)} (hst : Pool.step s.pool l = some pool)
    (hphase : ∀ i a, pool.phase i = .locking a ∨ pool.phase i = .waiting a →
      pool.phase i = s.pool.phase i ∧ pool.joined i = s.pool.joined i) :
    SessionInv ch { s with pool } := by
  refine ⟨Pool.step_inv h.pool hst,?_,?_,?_,?_⟩
  · exact fun c e he => ⟨step_completed h.pool.slots hst (h.failed c e he).1,(h.failed c e he).2⟩
  · exact fun c e he => ⟨step_completed h.pool.slots hst (h.sending c e he).1,(h.sending c e he).2⟩
  · intro c n a hp
    have hsame := (hphase (c,n) a hp).1
    rw [hsame] at hp
    exact h.blocked c n a hp
  · intro c n a k hp hj
    obtain ⟨hs,hjs⟩ := hphase (c,n) a (.inr hp)
    exact h.fresh c n a k (hs ▸ hp) (hjs ▸ hj)

theorem SessionInv.enter (h : SessionInv ch s) {c : ℕ} {pool : Pool.State Addr (ℕ × ℕ)}
    (hc : (s.call c).phase = .pooling)
    (hst : Pool.step s.pool (.enter (s.caller c) ch.remote) = some pool) :
    SessionInv ch { s with pool } := by
  have hinv := Pool.step_inv h.pool hst
  obtain ⟨-,rfl⟩ := step_enter hst
  refine ⟨hinv,h.failed,h.sending,?_,?_⟩
  · intro d n a hp
    by_cases hd : (d,n) = s.caller c
    · obtain ⟨rfl,rfl⟩ := Prod.mk.inj hd
      have hself : (s.pool.setPhase (s.caller d) (.locking ch.remote)).phase (s.caller d) =
          .locking ch.remote := Function.update_self ..
      rcases hp with hp | hp
      · cases hself.symm.trans hp
        exact ⟨rfl,rfl,hc⟩
      · cases hself.symm.trans hp
    · simp only [Pool.State.setPhase,Function.update_of_ne hd] at hp
      exact h.blocked d n a hp
  · intro d n a k hp hj
    by_cases hd : (d,n) = s.caller c
    · simp only [Pool.State.setPhase,hd,Function.update_self,reduceCtorEq] at hp
    · simp only [Pool.State.setPhase,Function.update_of_ne hd] at hp
      exact h.fresh d n a k hp hj

omit [DecidableEq Addr] in
/-- A call that joins a task joins one whose result it cannot have failed on. -/
theorem SessionInv.join (h : SessionInv ch s) {c : ℕ} {a : Addr} {k : ℕ}
    {pool : Pool.State Addr (ℕ × ℕ)} (hinv : Pool.Inv pool)
    (hlock : s.pool.phase (s.caller c) = .locking a)
    (hphase : pool.phase = Function.update s.pool.phase (s.caller c) (.waiting a))
    (hjoined : pool.joined = Function.update s.pool.joined (s.caller c) (some (a,k)))
    (htasks : ∀ j res, s.pool.tasks j = some ⟨ch.remote,.completed res⟩ →
      j ≠ k ∧ pool.tasks j = some ⟨ch.remote,.completed res⟩) :
    SessionInv ch { s with pool } := by
  refine ⟨hinv,?_,?_,?_,?_⟩
  · exact fun d e he => ⟨(htasks _ _ (h.failed d e he).1).2,(h.failed d e he).2⟩
  · exact fun d e he => ⟨(htasks _ _ (h.sending d e he).1).2,(h.sending d e he).2⟩
  · intro d n b hp
    by_cases hd : (d,n) = s.caller c
    · have hb : b = a := by
        simp only [hphase,hd,Function.update_self] at hp
        rcases hp with hp | hp
        · cases hp
        · cases hp; rfl
      rw [← hd] at hlock
      exact hb ▸ h.blocked d n a (.inl hlock)
    · simp only [hphase,Function.update_of_ne hd] at hp
      exact h.blocked d n b hp
  · intro d n b j hp hj e he
    by_cases hd : (d,n) = s.caller c
    · simp only [hjoined,hd,Function.update_self,Option.some.injEq,Prod.mk.injEq] at hj
      rw [← hj.2]
      exact (htasks _ _ (h.failed d e he).1).1
    · simp only [hphase,hjoined,Function.update_of_ne hd] at hp hj
      exact h.fresh d n b j hp hj e he

omit [DecidableEq Addr] in
theorem resumeEvents_phase {c : ℕ} {cs cs' : Call.State} {res : PoolResult} (hp : cs.phase = .pooling)
    (h : exec (Call.step (ch.config c)) cs (ch.resumeEvents c res) = some cs') :
    cs'.phase ≠ .pooling ∧
      ∀ e, cs'.phase = .sending e ↔ res = .ok e ∧ ch.build (ch.config c).h3Request = .ok () := by
  cases res with
  | error e =>
    simp only [QuicChannel.resumeEvents,exec_cons,exec_nil,Call.step,hp,Option.bind_some,
      Option.some.injEq] at h
    subst h
    simp
  | ok entry =>
    simp only [QuicChannel.resumeEvents,exec_cons,exec_nil,Call.step,hp,Option.bind_some] at h
    cases hb : ch.build (ch.config c).h3Request with
    | ok _ =>
      simp only [hb,Option.bind_some,Option.some.injEq] at h
      subst h
      simp
    | error m =>
      simp only [hb,Option.bind_some,Option.some.injEq] at h
      subst h
      simp

omit [DecidableEq Addr] in
theorem SessionInv.returned (h : SessionInv ch s) {c : ℕ} {a : Addr} {reply : Reply} {cs : Call.State}
    (hblocked : s.pool.phase (s.caller c) = .locking a ∨ s.pool.phase (s.caller c) = .waiting a)
    (hinv : Pool.Inv (s.pool.setPhase (s.caller c) (.returned reply)))
    (hres : ∀ e, reply.result = .ok e →
      s.pool.tasks e.quic.stableId = some ⟨ch.remote,.completed (.ok e)⟩)
    (hcs : exec (Call.step (ch.config c)) (s.call c) (ch.resumeEvents c reply.result) = some cs) :
    SessionInv ch { s.setCall c cs with pool := s.pool.setPhase (s.caller c) (.returned reply) } := by
  obtain ⟨hnp,hsend⟩ := resumeEvents_phase (h.blocked _ _ a hblocked).2.2 hcs
  refine ⟨hinv,h.failed,?_,?_,?_⟩
  · intro d e hd
    by_cases hdc : d = c
    · subst hdc
      simp only [State.setCall,Function.update_self] at hd
      obtain ⟨hr,hb⟩ := (hsend e).mp hd
      exact ⟨hres e hr,hb⟩
    · exact h.sending d e (by simpa only [State.setCall,Function.update_of_ne hdc] using hd)
  · intro d n b hp
    by_cases hd : (d,n) = s.caller c
    · simp only [Pool.State.setPhase,hd,Function.update_self,reduceCtorEq,or_self] at hp
    · simp only [Pool.State.setPhase,Function.update_of_ne hd] at hp
      obtain ⟨hb,hn,hpool⟩ := h.blocked d n b hp
      have hdc : d ≠ c := by
        rintro rfl
        exact hd (by rw [hn]; rfl)
      simp only [State.setCall,Function.update_of_ne hdc]
      exact ⟨hb,hn,hpool⟩
  · intro d n b k hp hj
    by_cases hd : (d,n) = s.caller c
    · simp only [Pool.State.setPhase,hd,Function.update_self,reduceCtorEq] at hp
    · simp only [Pool.State.setPhase,Function.update_of_ne hd] at hp
      exact h.fresh d n b k hp hj

/-- A lookup is served with an open entry, or the call joins a connect task and
nothing open is in the map. -/
theorem lookup_cases (h : SessionInv ch s) {c : ℕ}
    (hst : (Pool.step s.pool (.lookup (s.caller c))).bind (ch.resume s c) = some t) :
    SessionInv ch t ∧
    ((∃ e cs, s.pool.map ch.remote = some (.ready e) ∧ s.pool.isClosed e.quic = false ∧
        (s.call c).phase = .pooling ∧
        exec (Call.step (ch.config c)) (s.call c) (ch.resumeEvents c (.ok e)) = some cs ∧
        t.call = Function.update s.call c cs ∧ t.failedOn = s.failedOn) ∨
      ((∀ e, s.pool.map ch.remote = some (.ready e) → s.pool.isClosed e.quic = true) ∧
        t.call = s.call ∧ t.failedOn = s.failedOn)) := by
  obtain ⟨pool,hpool,hres⟩ := Option.bind_eq_some_iff.mp hst
  have hinv := Pool.step_inv h.pool hpool
  obtain ⟨a,hlock,-,rfl⟩ := step_lookup hpool
  obtain ⟨rfl,-,hphase⟩ := h.blocked _ _ a (.inl hlock)
  have hwait {p : Pool.State Addr (ℕ × ℕ)} (hp : p.phase (s.caller c) = .waiting ch.remote)
      (ht : ch.resume s c p = some t) : t = { s with pool := p } := by
    simp only [QuicChannel.resume,hp,Option.some.injEq] at ht
    exact ht.symm
  rcases getOrConnect_cases s.pool (s.caller c) ch.remote with
    ⟨e,hm,hc,hg⟩ | ⟨ws,hm,hg⟩ | ⟨-,hcl,hg⟩
  · rw [hg] at hres hinv
    simp only [QuicChannel.resume,Pool.State.setPhase,Function.update_self] at hres
    obtain ⟨cs,hcs,rfl⟩ := Option.map_eq_some_iff.mp hres
    refine ⟨h.returned (.inl hlock) hinv ?_ hcs,.inl ⟨e,cs,hm,hc,hphase,hcs,rfl,rfl⟩⟩
    intro e' he'
    cases he'
    exact h.pool.slots.installed _ e hm
  · rw [hg] at hres hinv
    cases hwait (Function.update_self ..) hres
    refine ⟨h.join hinv hlock rfl rfl ?_,.inr ⟨?_,rfl,rfl⟩⟩
    · intro j res hj
      refine ⟨?_,hj⟩
      rintro rfl
      obtain ⟨p,hp,hf⟩ := h.pool.slots.slot _ ws hm
      rw [hj] at hp
      cases hp
      cases hf
    · intro e he
      rw [hm] at he
      cases he
  · rw [hg] at hres hinv
    cases hwait (Function.update_self ..) hres
    refine ⟨h.join hinv hlock rfl rfl ?_,.inr ⟨hcl,rfl,rfl⟩⟩
    intro j res hj
    have hne : j ≠ s.pool.nextTask := by
      rintro rfl
      rw [h.pool.slots.fresh _ le_rfl] at hj
      cases hj
    exact ⟨hne,(Function.update_of_ne hne ..).trans hj⟩

/-- A call answered by a connect task has never failed on the entry it gets. -/
theorem receive_cases (h : SessionInv ch s) {c : ℕ}
    (hst : (Pool.step s.pool (.receive (s.caller c))).bind (ch.resume s c) = some t) :
    SessionInv ch t ∧ ∃ cs, t.call = Function.update s.call c cs ∧ t.failedOn = s.failedOn ∧
      ∀ e, cs.phase = .sending e → e ∉ s.failedOn c := by
  obtain ⟨pool,hpool,hres⟩ := Option.bind_eq_some_iff.mp hst
  have hinv := Pool.step_inv h.pool hpool
  obtain ⟨a,hwait,⟨r,rest,hsent,rfl⟩ | ⟨-,-,rfl⟩⟩ := step_receive hpool
  · obtain ⟨rfl,-,hphase⟩ := h.blocked _ _ a (.inr hwait)
    obtain ⟨k,hj⟩ := h.pool.senders.blocked _ _ hwait
    obtain ⟨res,hk,rfl⟩ := h.pool.sent_eq hj (hsent ▸ List.mem_cons_self)
    have hok {e : PoolEntry} (he : waiterResult res = .ok e) :
        res = .ok e ∧ e.quic.stableId = k := by
      cases res with
      | error _ => cases he
      | ok e' =>
        cases he
        exact ⟨rfl,h.pool.slots.named k _ e (.inr hk)⟩
    simp only [QuicChannel.resume,Pool.State.setPhase,Function.update_self] at hres
    obtain ⟨cs,hcs,rfl⟩ := Option.map_eq_some_iff.mp hres
    refine ⟨h.returned (.inr hwait) hinv ?_ hcs,cs,rfl,rfl,?_⟩
    · intro e he
      obtain ⟨rfl,rfl⟩ := hok he
      exact hk
    · intro e he hf
      obtain ⟨hr,-⟩ := ((resumeEvents_phase hphase hcs).2 e).mp he
      exact h.fresh _ _ _ k hwait hj e hf (hok hr).2
  · exact (hinv.senders.noFallback (s.caller c) (Function.update_self ..)).elim

omit [DecidableEq Addr] in
theorem sent_cases (h : SessionInv ch s) {c : ℕ} {res : Except CoreError Unit}
    (hst : ch.sent s c res = some t) :
    SessionInv ch t ∧ ∃ cs, t.call = Function.update s.call c cs ∧
      (∀ e, cs.phase ≠ .sending e) ∧ ∀ d, d ≠ c → t.failedOn d = s.failedOn d := by
  unfold QuicChannel.sent at hst
  split at hst
  · rename_i entry hc
    have hnp : (s.call c).phase ≠ .pooling := by rw [hc]; exact nofun
    cases res with
    | ok _ =>
      simp only at hst
      split at hst
      · obtain ⟨cs,hcs,rfl⟩ := Option.map_eq_some_iff.mp hst
        have hne := Call.step_ne_sending hcs nofun
        exact ⟨h.setCall hnp hne,cs,rfl,hne,fun _ _ => rfl⟩
      · cases hst
    | error e =>
      obtain ⟨cs,hcs,rfl⟩ := Option.map_eq_some_iff.mp hst
      have hne := Call.step_ne_sending hcs nofun
      exact ⟨h.sendFailed hc hne,cs,rfl,hne,fun d hd => Function.update_of_ne hd ..⟩
  · cases hst

omit [DecidableEq Addr] in
theorem NoReturn.update (h : NoReturn s) {c : ℕ} {cs : Call.State}
    (hcall : t.call = Function.update s.call c cs)
    (hfailed : ∀ d, d ≠ c → t.failedOn d = s.failedOn d) :
    NoReturn t ↔ ∀ e, cs.phase = .sending e → e ∉ t.failedOn c := by
  constructor
  · intro ht e he
    exact ht c e (by rw [hcall,Function.update_self]; exact he)
  · intro hc d e he
    rw [hcall] at he
    by_cases hd : d = c
    · subst hd
      rw [Function.update_self] at he
      exact hc e he
    · rw [Function.update_of_ne hd] at he
      rw [hfailed d hd]
      exact h d e he

/-- A retry that looks up keeps clear of the sessions that failed it exactly
when their connections are closed. -/
theorem lookup_noReturn (h : SessionInv ch s) (hP : NoReturn s) {c : ℕ}
    (hst : (Pool.step s.pool (.lookup (s.caller c))).bind (ch.resume s c) = some t) :
    NoReturn t ↔ ∀ e ∈ s.failedOn c, s.pool.isClosed e.quic = true := by
  have hready {e : PoolEntry} (he : e ∈ s.failedOn c) (ho : s.pool.isClosed e.quic = false) :
      s.pool.map ch.remote = some (.ready e) := h.pool.openReady (h.failed c e he).1 ho
  rcases (lookup_cases h hst).2 with ⟨e,cs,hm,ho,hp,hcs,hcall,hfailed⟩ | ⟨hcl,hcall,hfailed⟩
  · rw [hP.update hcall fun d _ => by rw [hfailed],hfailed]
    have hsend := (resumeEvents_phase hp hcs).2
    constructor
    · intro hno f hf
      refine Bool.eq_true_of_not_eq_false fun hof => ?_
      have hfe := hready hf hof
      rw [hm] at hfe
      cases hfe
      exact hno e ((hsend e).mpr ⟨rfl,(h.failed c e hf).2⟩) hf
    · intro hall f hf hmem
      obtain ⟨hfe,-⟩ := (hsend f).mp hf
      cases hfe
      rw [hall e hmem] at ho
      cases ho
  · constructor
    · intro _ f hf
      refine Bool.eq_true_of_not_eq_false fun hof => ?_
      rw [hcl f (hready hf hof)] at hof
      cases hof
    · intro _ d e he
      rw [hcall] at he
      rw [hfailed]
      exact hP d e he

omit [DecidableEq Addr] in
theorem setCall_session (h : SessionInv ch s) {c : ℕ} {e : Call.Event}
    (hst : (Call.step (ch.config c) (s.call c) e).map (s.setCall c) = some t)
    (hp : ∀ r, e ≠ .pooled r) (hb : ∀ r, e ≠ .built r) :
    SessionInv ch t ∧ (NoReturn s → NoReturn t) := by
  obtain ⟨cs,hcs,rfl⟩ := Option.map_eq_some_iff.mp hst
  have hne := Call.step_ne_sending hcs hb
  refine ⟨h.setCall (Call.ne_pooling_of_step hcs hp) hne,fun hP => ?_⟩
  have hiff : NoReturn (s.setCall c cs) ↔ ∀ e, cs.phase = .sending e → e ∉ s.failedOn c :=
    hP.update rfl fun _ _ => rfl
  exact hiff.mpr fun e he => (hne e he).elim

theorem stepCall_session (h : SessionInv ch s) {c : ℕ} {l : Label} (hl : l.call = some c)
    (hst : ch.stepCall s c l = some t) :
    SessionInv ch t ∧ (NoReturn s → (NoReturn t ↔ ClosedBeforeRetry s l)) := by
  have hfree {m : Label} (hm : ∀ d, m ≠ .lookup d)
      (ht : SessionInv ch t ∧ (NoReturn s → NoReturn t)) :
      SessionInv ch t ∧ (NoReturn s → (NoReturn t ↔ ClosedBeforeRetry s m)) :=
    ⟨ht.1,fun hP => ⟨fun _ d hd => (hm d hd).elim,fun _ => ht.2 hP⟩⟩
  cases l with
  | background b => cases hl
  | refuse k => cases hl
  | acquired d permit => exact hfree nofun (setCall_session h hst nofun nofun)
  | woke d => exact hfree nofun (setCall_session h hst nofun nofun)
  | responded d res => exact hfree nofun (setCall_session h hst nofun nofun)
  | enter d =>
    simp only [QuicChannel.stepCall] at hst
    split at hst
    · rename_i hp
      obtain ⟨pool,hpool,rfl⟩ := Option.map_eq_some_iff.mp hst
      exact hfree nofun ⟨h.enter hp hpool,fun hP => hP⟩
    · cases hst
  | lookup d =>
    cases hl
    refine ⟨(lookup_cases h hst).1,fun hP => (lookup_noReturn h hP hst).trans ?_⟩
    constructor
    · intro hall d hd
      cases hd
      exact hall
    · exact fun hC => hC c rfl
  | receive d =>
    cases hl
    obtain ⟨hinv,cs,hcall,hfailed,hnew⟩ := receive_cases h hst
    refine hfree nofun ⟨hinv,fun hP => ?_⟩
    exact (hP.update hcall fun d _ => by rw [hfailed]).mpr (by rw [hfailed]; exact hnew)
  | sent d res =>
    obtain ⟨hinv,cs,hcall,hne,hfailed⟩ := sent_cases h hst
    exact hfree nofun ⟨hinv,fun hP => (hP.update hcall hfailed).mpr fun e he => (hne e he).elim⟩
  | invalidate d =>
    simp only [QuicChannel.stepCall] at hst
    obtain ⟨cs,hcs,hmap⟩ := Option.bind_eq_some_iff.mp hst
    obtain ⟨pool,hpool,rfl⟩ := Option.map_eq_some_iff.mp hmap
    have hcall : (Call.step (ch.config c) (s.call c) .invalidated).map (s.setCall c) =
        some (s.setCall c cs) := by rw [hcs]; rfl
    obtain ⟨hset,hno⟩ := setCall_session h hcall nofun nofun
    refine hfree nofun ⟨?_,hno⟩
    obtain ⟨-,hpe⟩ := step_invalidate hpool
    exact hset.setPool hpool fun i a _ => by rw [hpe]; exact ⟨rfl,rfl⟩
  | drop d =>
    cases hst
    refine hfree nofun ⟨?_,fun hP => hP⟩
    cases hc : Pool.step s.pool (.cancel (s.caller c)) with
    | none => exact ⟨h.pool,h.failed,h.sending,h.blocked,h.fresh⟩
    | some pool =>
      have hset : SessionInv ch { s with pool } := by
        refine h.setPool hc fun i a hp => ?_
        obtain ⟨-,rfl⟩ := step_cancel hc
        have hi : i ≠ s.caller c := by
          rintro rfl
          simp only [Pool.State.setPhase,Function.update_self,reduceCtorEq,or_self] at hp
        exact ⟨Function.update_of_ne hi ..,rfl⟩
      exact ⟨hset.pool,hset.failed,hset.sending,hset.blocked,hset.fresh⟩

theorem step_session (h : SessionInv ch s) {l : Label} (hst : ch.step s l = some t) :
    SessionInv ch t ∧ (NoReturn s → (NoReturn t ↔ ClosedBeforeRetry s l)) := by
  unfold QuicChannel.step at hst
  split at hst
  · rename_i c hc
    split at hst
    · cases hst
    · exact stepCall_session h hc hst
  · split at hst
    · rename_i b
      obtain ⟨pool,hpool,rfl⟩ := Option.map_eq_some_iff.mp hst
      obtain ⟨hphase,hjoined⟩ := background_frame hpool
      refine ⟨h.setPool hpool fun i a _ => by rw [hphase,hjoined]; exact ⟨rfl,rfl⟩,fun hP => ?_⟩
      exact ⟨fun _ d hd => (Label.noConfusion hd),fun _ => hP⟩
    · cases hst
      exact ⟨⟨h.pool,h.failed,h.sending,h.blocked,h.fresh⟩,
        fun hP => ⟨fun _ d hd => Label.noConfusion hd,fun _ => hP⟩⟩
    · cases hst

/-- In every run of every number of calls, no retry goes back to a session that
failed it if and only if each retry that looks the entry up finds the
connections of all the sessions it failed on closed. -/
theorem no_return_iff {ls : List Label} (h : exec ch.step State.init ls = some s) :
    Always ch.step NoReturn State.init ls ↔ Meets ch.step ClosedBeforeRetry State.init ls := by
  exact always_iff_meets (fun _ _ _ hs _ hst => (step_session hs hst).1)
    (fun _ _ _ hs hP _ hst => (step_session hs hst).2 hP) sessionInv_init nofun meets_true h

def echoChannel : QuicChannel ℕ where
  remote := 7
  config _ := ⟨"localhost",.default,⟨"POST",none,"/echo",[]⟩⟩
  build _ := .ok ()

/-- The session refuses requests from the moment the call has obtained it, the
connection under it stays open, and the retry is served with it again. -/
def refusedRun : List Label :=
  [.acquired 0 true,.enter 0,.lookup 0,.background (.connected 0),.background (.h3Ready 0),
   .background (.complete 0),.background .answer,.background .finish,.receive 0,.refuse 0,
   .sent 0 (.error (.h3Stream "closing")),.invalidate 0,.woke 0,.enter 0,.lookup 0]

theorem refusedRun_returns :
    ∃ s, exec echoChannel.step State.init refusedRun = some s ∧ s.pool.isClosed ⟨0⟩ = false ∧
      s.refusing 0 = true ∧ (s.call 0).phase = .sending ⟨⟨0⟩,⟨0⟩⟩ ∧ ⟨⟨0⟩,⟨0⟩⟩ ∈ s.failedOn 0 :=
  ⟨_,rfl,rfl,rfl,rfl,List.mem_cons_self⟩

theorem refusedRun_not_always : ¬ Always echoChannel.step NoReturn State.init refusedRun := by
  intro hall
  obtain ⟨s,hs,-,-,hp,hf⟩ := refusedRun_returns
  exact hall.last hs 0 _ hp hf

theorem return_to_refusing_session :
    ¬ ∀ (ch : QuicChannel ℕ) ls s, exec ch.step State.init ls = some s →
      Always ch.step NoReturn State.init ls := by
  intro h
  obtain ⟨s,hs,-⟩ := refusedRun_returns
  exact refusedRun_not_always (h echoChannel refusedRun s hs)

theorem no_return_iff_refusedRun :
    ¬ Meets echoChannel.step ClosedBeforeRetry State.init refusedRun := by
  intro hmeets
  obtain ⟨s,hs,-⟩ := refusedRun_returns
  exact refusedRun_not_always ((no_return_iff hs).mpr hmeets)

end GrpcQuic.Channel
