import GrpcQuic.Client.CallSchedule
import GrpcQuic.Client.ChannelGuarantees
import GrpcQuic.Client.PoolReuse

/-! # Where the outcomes of the attempts come from

What a call logs of the pool was handed out by it, and the pool hands out what
its connect tasks came to: a connection that one of them has made, or the text
of the error that one of them met.
-/
namespace GrpcQuic.Call
open Pool
variable {cfg : Config} {s t : State}

def got (log : List Action) : List PoolResult :=
  log.filterMap fun a => match a with
    | .pooled entry => some (.ok entry)
    | .poolFailed e => some (.error e)
    | _ => none

def Event.reply : Event → Option PoolResult
  | .pooled res => some res
  | _ => none

theorem got_append (as bs : List Action) : got (as ++ bs) = got as ++ got bs := List.filterMap_append

theorem got_enter (cfg : Config) (s : State) (k : ℕ) : got (s.enter cfg k).log = got s.log := by
  unfold State.enter
  split
  · split
    · rw [got_append]
      exact List.append_nil _
    · rw [got_append]
      exact List.append_nil _
  · rfl

theorem step_got {e : Event} (h : step cfg s e = some t) : got t.log = got s.log ++ e.reply.toList := by
  have hsilent (as : List Action) (has : got as = []) : got (s.log ++ as) = got s.log ++ [] := by
    rw [got_append,has]
  cases e with
  | acquired permit =>
    cases hp : s.phase <;> simp only [step,hp,reduceCtorEq] at h
    cases permit <;> cases h
    · exact (List.append_nil _).symm
    · exact (got_enter cfg s 0).trans (List.append_nil _).symm
  | woke =>
    cases hp : s.phase <;> simp only [step,hp,reduceCtorEq] at h
    cases h
    exact hsilent _ rfl
  | pooled r =>
    cases hp : s.phase <;> simp only [step,hp,reduceCtorEq] at h
    cases r <;> cases h <;> exact got_append _ _
  | built r =>
    cases hp : s.phase <;> simp only [step,hp,reduceCtorEq] at h
    cases r <;> cases h <;> exact hsilent _ rfl
  | sent r =>
    cases hp : s.phase <;> simp only [step,hp,reduceCtorEq] at h
    cases r <;> cases h <;> exact hsilent _ rfl
  | invalidated =>
    cases hp : s.phase <;> simp only [step,hp,reduceCtorEq] at h
    cases h
    exact (got_enter cfg s _).trans (List.append_nil _).symm
  | responded r =>
    cases hp : s.phase <;> simp only [step,hp,reduceCtorEq] at h
    cases r <;> cases h <;> exact hsilent _ rfl

theorem mem_got {log : List Action} : (∀ entry, .ok entry ∈ got log ↔ .pooled entry ∈ log) ∧
    ∀ e, .error e ∈ got log ↔ .poolFailed e ∈ log := by
  refine ⟨fun entry => ?_,fun e => ?_⟩ <;> rw [got,List.mem_filterMap] <;> constructor
  · rintro ⟨a,ha,hr⟩
    cases a <;> cases hr
    exact ha
  · exact fun ha => ⟨_,ha,rfl⟩
  · rintro ⟨a,ha,hr⟩
    cases a <;> cases hr
    exact ha
  · exact fun ha => ⟨_,ha,rfl⟩

theorem mem_callActions (cfg : Config) {os : List Outcome} {o : Outcome} (ho : o ∈ os) {a : Action}
    (ha : a ∈ o.actions cfg) (k : ℕ) : a ∈ callActions cfg k os := by
  induction os generalizing k with
  | nil => cases ho
  | cons o' os ih =>
    rcases List.mem_cons.mp ho with rfl | ho
    · exact List.mem_append_left _ (List.mem_append_right _ (List.mem_cons_of_mem _ ha))
    · exact List.mem_append_right _ (ih ho (k + 1))

def failures (cfg : Config) (e : ClientError) (n : ℕ) : List Action := callActions cfg 0 (.replicate n (.poolFailed e))

theorem outcomes_of_got {os : List Outcome} {as : List Action} {e : ClientError}
    (h : ∀ r ∈ got (callActions cfg 0 os ++ as), r = .error e) : os = .replicate os.length (.poolFailed e) := by
  refine List.eq_replicate_iff.mpr ⟨rfl,fun o ho => ?_⟩
  have hmem {a : Action} (ha : a ∈ o.actions cfg) : a ∈ callActions cfg 0 os ++ as :=
    List.mem_append_left _ (mem_callActions cfg ho ha 0)
  have hentry {entry : PoolEntry} (ha : .pooled entry ∈ o.actions cfg) : o = .poolFailed e := by
    cases h _ ((mem_got.1 entry).mpr (hmem ha))
  cases o with
  | poolFailed x => cases h _ ((mem_got.2 x).mpr (hmem List.mem_cons_self)); rfl
  | _ => exact hentry List.mem_cons_self

theorem failures_snoc (cfg : Config) (e : ClientError) {n m : ℕ} (h : n < m) :
    failures cfg e n ++ attemptActions cfg n (.poolFailed e) <+: failures cfg e m := by
  obtain ⟨k,rfl⟩ := Nat.exists_eq_add_of_lt h
  have hsplit : List.replicate (n + k + 1) (Outcome.poolFailed e) =
      (List.replicate n (.poolFailed e) ++ [.poolFailed e]) ++ .replicate k (.poolFailed e) := by
    rw [← List.replicate_succ',List.replicate_append_replicate]
    congr 1
    omega
  rw [failures,failures,hsplit,callActions_append,callActions_snoc,List.length_replicate]
  exact List.prefix_append _ _

theorem failures_mono (cfg : Config) (e : ClientError) {n m : ℕ} (h : n ≤ m) :
    failures cfg e n <+: failures cfg e m := by
  rcases Nat.eq_or_lt_of_le h with rfl | hlt
  · exact List.prefix_rfl
  · exact (List.prefix_append _ _).trans (failures_snoc cfg e hlt)

/-- A call that gets the same error for each attempt runs through its retries. -/
theorem ScheduleInv.failures (h : ScheduleInv cfg s) {e : ClientError} (hgot : ∀ r ∈ got s.log, r = .error e) :
    s.log <+: failures cfg e cfg.retry.maxAttempts ∧ ∀ res, s.phase = .done res → res = .error .closed ∨
      s.log = failures cfg e cfg.retry.maxAttempts ∧
        res = .error (if cfg.retry.maxAttempts = 0 then .retriesExhausted 0 "no error captured" else e) := by
  have hnone (entry : PoolEntry) : .pooled entry ∉ s.log := by
    intro hmem
    cases hgot _ ((mem_got.1 entry).mpr hmem)
  have hos {os : List Outcome} {as : List Action} (hlog : s.log = callActions cfg 0 os ++ as) :
      callActions cfg 0 os = Call.failures cfg e os.length := by
    rw [hlog] at hgot
    exact congrArg (callActions cfg 0) (outcomes_of_got hgot)
  have hnext {os : List Outcome} {as : List Action} (hlt : os.length < cfg.retry.maxAttempts)
      (hlog : s.log = callActions cfg 0 os ++ as) (has : as <+: attemptActions cfg os.length (.poolFailed e)) :
      s.log <+: Call.failures cfg e cfg.retry.maxAttempts := by
    rw [hlog,hos hlog]
    exact ((List.prefix_append_right_inj _).mpr has).trans (failures_snoc cfg e hlt)
  unfold ScheduleInv at h
  cases hp : s.phase with
  | acquiring =>
    rw [hp] at h
    rw [h.1]
    exact ⟨List.nil_prefix,by rintro res ⟨⟩⟩
  | sleeping =>
    rw [hp] at h
    obtain ⟨os,-,-,hlt,-,hlog⟩ := h
    exact ⟨hnext hlt hlog (List.prefix_append _ _),by rintro res ⟨⟩⟩
  | pooling =>
    rw [hp] at h
    obtain ⟨os,-,-,hlt,-,hlog⟩ := h
    refine ⟨hnext hlt hlog ?_,by rintro res ⟨⟩⟩
    exact (List.prefix_append_right_inj _).mpr (List.prefix_append [Action.getOrConnect] _)
  | building entry =>
    rw [hp] at h
    obtain ⟨os,-,-,-,-,hlog⟩ := h
    exact (hnone entry (by rw [hlog]; simp [Phase.partialLog])).elim
  | sending entry =>
    rw [hp] at h
    obtain ⟨os,-,-,-,-,hlog⟩ := h
    exact (hnone entry (by rw [hlog]; simp [Phase.partialLog])).elim
  | invalidating =>
    rw [hp] at h
    obtain ⟨os,-,-,hle,-,hlog⟩ := h
    refine ⟨?_,by rintro res ⟨⟩⟩
    rw [hlog,hos (hlog.trans (List.append_nil _).symm)]
    exact failures_mono cfg e hle
  | awaitingResponse =>
    rw [hp] at h
    obtain ⟨os,entry,-,-,hlog⟩ := h
    exact (hnone entry (by rw [hlog]; simp [opened])).elim
  | done res =>
    rw [hp] at h
    cases h with
    | closed hlog hres =>
      rw [hlog]
      refine ⟨List.nil_prefix,?_⟩
      rintro _ ⟨⟩
      exact .inl hres
    | exhausted os hall hlen hlog hres =>
      have hfail : s.log = Call.failures cfg e cfg.retry.maxAttempts := by
        rw [hlog,← hlen]
        exact hos (hlog.trans (List.append_nil _).symm)
      refine ⟨hfail ▸ List.prefix_rfl,?_⟩
      rintro _ ⟨⟩
      refine .inr ⟨hfail,hres.trans ?_⟩
      have hrep : os = .replicate os.length (.poolFailed e) := by
        refine @outcomes_of_got cfg os [] e ?_
        rwa [List.append_nil,← hlog]
      rw [hrep,hlen]
      cases cfg.retry.maxAttempts with
      | zero => rfl
      | succ n =>
        rw [List.replicate_succ',lastError_snoc]
        rfl
    | decided os o hall ho hlen hlog hres =>
      have hentry {entry : PoolEntry} (ha : .pooled entry ∈ o.actions cfg) : False := by
        refine hnone entry ?_
        rw [hlog]
        exact mem_callActions cfg (List.mem_append_right os (List.mem_singleton_self o)) ha 0
      cases o with
      | poolFailed x => cases ho
      | sendFailed entry x => cases ho
      | _ => exact (hentry List.mem_cons_self).elim

end GrpcQuic.Call

namespace GrpcQuic.ConcurrencyLimit
open Transition Call
variable {s t : State} {P : Pool.PoolResult → Prop}

def Got (P : Pool.PoolResult → Prop) (s : State) : Prop :=
  ∀ call ∈ s.calls, ∀ r ∈ got call.rpc.call.log, P r

def Hands (P : Pool.PoolResult → Prop) (l : Label) : Prop := ∀ c r, l = .rpc c (.call (.pooled r)) → P r

theorem step_got (h : Got P s) {l : Label} (hl : Hands P l) (hst : step s l = some t) : Got P t := by
  cases l with
  | call req =>
    cases hst
    intro call hc
    rcases List.mem_append.mp hc with hc | hc
    · exact h call hc
    · cases List.mem_singleton.mp hc
      exact fun r hr => (List.not_mem_nil hr).elim
  | rpc c m =>
    obtain ⟨call₀,call₁,hc₀,hm,-,hset⟩ := step_rpc_cases hst
    intro call hc r hr
    rw [hset] at hc
    rcases List.mem_or_eq_of_mem_set hc with hc | rfl
    · exact h call hc r hr
    · have hold := h call₀ (List.mem_of_getElem? hc₀) r
      rcases rpc_step_frame hm with ⟨e,rfl,-,-,hcs⟩ | ⟨-,hcall,-⟩
      · rw [Call.step_got hcs] at hr
        rcases List.mem_append.mp hr with hr | hr
        · exact hold hr
        · cases e with
          | pooled res =>
            cases List.mem_singleton.mp hr
            exact hl c r rfl
          | _ => exact (List.not_mem_nil hr).elim
      · rw [hcall] at hr
        exact hold hr

end GrpcQuic.ConcurrencyLimit

namespace GrpcQuic.Client
open Transition ConcurrencyLimit Pool
variable {Addr : Type*} [DecidableEq Addr] {p : Platform} {ch : QuicChannel Addr} {s t : State Addr}

def QuicChannel.Dialled (ch : QuicChannel Addr) (past : List Label) (k : ℕ) (res : Except ClientError Unit) : Prop :=
  ∃ dial, .dial k dial ∈ past ∧ ch.connectFn dial = res

/-- Connect task `k` has met this error: its dial did, or the h3 setup of the
connection it dialled. -/
def QuicChannel.Failed (ch : QuicChannel Addr) (past : List Label) (k : ℕ) (e : ClientError) : Prop :=
  ch.Dialled past k (.error e) ∨
    ch.Dialled past k (.ok ()) ∧ ∃ m : CoreError, .h3 k (.error m) ∈ past ∧ e = .streamIo m.toString

def QuicChannel.Made (ch : QuicChannel Addr) (past : List Label) (k : ℕ) : Prop :=
  ch.Dialled past k (.ok ()) ∧ .h3 k (.ok ()) ∈ past

def QuicChannel.Connects (ch : QuicChannel Addr) (past : List Label) : Pool.Label Addr (ℕ × ℕ) → Prop
  | .connected k => ch.Dialled past k (.ok ())
  | .connectFailed k e => ch.Dialled past k (.error e)
  | .h3Ready k => .h3 k (.ok ()) ∈ past
  | .h3Failed k e => .h3 k (.error e) ∈ past
  | _ => True

def QuicChannel.Reaches (ch : QuicChannel Addr) (past : List Label) (k : ℕ) : TaskPhase → Prop
  | .connecting => True
  | .h3Setup => ch.Dialled past k (.ok ())
  | .locking res | .completed res =>
    match res with
    | .ok _ => ch.Made past k
    | .error e => ch.Failed past k e

section
variable {past past' : List Label} {k : ℕ}

omit [DecidableEq Addr] in
theorem dialled_mono (hsub : past ⊆ past') {res : Except ClientError Unit} (h : ch.Dialled past k res) :
    ch.Dialled past' k res := by
  obtain ⟨dial,hd,hres⟩ := h
  exact ⟨dial,hsub hd,hres⟩

omit [DecidableEq Addr] in
theorem reaches_mono (hsub : past ⊆ past') {p : TaskPhase} (h : ch.Reaches past k p) : ch.Reaches past' k p := by
  have hres {res : PoolResult} (h : ch.Reaches past k (.completed res)) : ch.Reaches past' k (.completed res) := by
    cases res with
    | ok entry => exact ⟨dialled_mono hsub h.1,hsub h.2⟩
    | error e =>
      rcases h with hd | ⟨hd,m,hm,he⟩
      · exact .inl (dialled_mono hsub hd)
      · exact .inr ⟨dialled_mono hsub hd,m,hsub hm,he⟩
  cases p with
  | connecting => trivial
  | h3Setup => exact dialled_mono hsub h
  | locking res => exact hres h
  | completed res => exact hres h

theorem step_reaches {pool pool' : Pool.State Addr (ℕ × ℕ)}
    (h : ∀ k task, pool.tasks k = some task → ch.Reaches past k task.phase) {l : Pool.Label Addr (ℕ × ℕ)}
    (hl : ch.Connects past l) (hst : Pool.step pool l = some pool') :
    ∀ k task, pool'.tasks k = some task → ch.Reaches past k task.phase := by
  rintro k ⟨a,p⟩ hk
  rcases step_taskPhase hst hk with hsame | ⟨rfl,-⟩ | ⟨old,hold,hm⟩
  · exact h k _ hsame
  · trivial
  · have hr := h k _ hold
    cases hm with
    | connected => exact hl
    | connectFailed e => exact .inl hl
    | h3Ready => exact ⟨hr,hl⟩
    | h3Failed e => exact .inr ⟨hr,e,hl,rfl⟩
    | complete res => exact hr

end

/-- What the connect tasks and the calls of a channel know of each other and of the run. -/
structure Origins (ch : QuicChannel Addr) (past : List Label) (s : State Addr) : Prop where
  tasks : ∀ k task, s.pool.tasks k = some task → ch.Reaches past k task.phase
  calls : Got (s.pool.Answered ch.remote) s.limit

/-- From `s` to `t` the pool runs steps of the connect tasks of the channel, and the
calls are handed what it has answered. -/
structure Handing (ch : QuicChannel Addr) (past : List Label) (s t : State Addr) : Prop where
  pool : ∃ ps, exec Pool.step s.pool ps = some t.pool ∧ ∀ l ∈ ps, ch.Connects past l
  limit : ∃ ls, exec ConcurrencyLimit.step s.limit ls = some t.limit ∧
    ∀ l ∈ ls, Hands (t.pool.Answered ch.remote) l

theorem hands_rpc {P : PoolResult → Prop} {c : ℕ} {m : Rpc.Label} (h : ∀ r, m = .call (.pooled r) → P r) :
    ∀ l ∈ [ConcurrencyLimit.Label.rpc c m], Hands P l := by
  intro l hl d r he
  cases List.mem_singleton.mp hl
  cases he
  exact h r rfl

theorem resume_handing {past : List Label} {c : ℕ} {l : Pool.Label Addr (ℕ × ℕ)} (hl : ch.Connects past l)
    (hanswered : ∀ pool reply, Pool.step s.pool l = some pool → pool.phase (s.caller c) = .returned reply →
      pool.Answered ch.remote reply.result)
    (h : (s.poolStep l).bind (fun u => u.resume p c) = some t) : Handing ch past s t := by
  obtain ⟨u,hu,hr⟩ := Option.bind_eq_some_iff.mp h
  obtain ⟨pool,hpool,rfl⟩ := poolStep_eq_some.mp hu
  have hrun : exec Pool.step s.pool [l] = some pool := exec_cons_eq_some.mpr ⟨pool,hpool,rfl⟩
  have hconnects : ∀ q ∈ [l], ch.Connects past q := fun q hq => List.mem_singleton.mp hq ▸ hl
  rcases resume_cases hr with ⟨reply,call,hp,-,hc⟩ | ⟨-,rfl⟩
  · obtain ⟨limit,hl,rfl⟩ := limitSteps_eq_some.mp hc
    refine ⟨⟨[l],hrun,hconnects⟩,_,hl,fun m hm d r he => ?_⟩
    subst he
    obtain ⟨e,hme,he⟩ := List.mem_map.mp hm
    cases he
    have hr : r = reply.result := by
      unfold resumeEvents at hme
      split at hme <;> simp_all
    rw [hr]
    exact hanswered pool reply hpool hp
  · exact ⟨⟨[l],hrun,hconnects⟩,[],rfl,fun m hm => (List.not_mem_nil hm).elim⟩

theorem step_handing (h : ChannelInv p ch s) {past : List Label} {l : Label} (hpast : l ∈ past)
    (hst : ch.step p s l = some t) : Handing ch past s t := by
  have hpool {q : Pool.Label Addr (ℕ × ℕ)} (hst : s.poolStep q = some t) (hq : ch.Connects past q) :
      Handing ch past s t := by
    obtain ⟨pool,hpq,rfl⟩ := poolStep_eq_some.mp hst
    exact ⟨⟨[q],exec_cons_eq_some.mpr ⟨pool,hpq,rfl⟩,fun m hm => List.mem_singleton.mp hm ▸ hq⟩,[],rfl,
      fun m hm => (List.not_mem_nil hm).elim⟩
  have hcalls {ls : List ConcurrencyLimit.Label} (hls : ∀ m ∈ ls, Hands (s.pool.Answered ch.remote) m)
      (hst : s.limitSteps ls = some t) : Handing ch past s t := by
    obtain ⟨limit,hl,rfl⟩ := limitSteps_eq_some.mp hst
    exact ⟨⟨[],rfl,fun m hm => (List.not_mem_nil hm).elim⟩,ls,hl,hls⟩
  have habandon {c : ℕ} {m : Rpc.Label} (hm : ∀ r, m ≠ .call (.pooled r)) (ha : s.abandon c m = some t) :
      Handing ch past s t := by
    obtain ⟨u,hu,rfl⟩ := Option.map_eq_some_iff.mp ha
    obtain ⟨limit,hl,rfl⟩ := limitSteps_eq_some.mp hu
    refine ⟨?_,_,hl,hands_rpc fun r he => (hm r he).elim⟩
    cases hq : Pool.step s.pool (.cancel (s.caller c)) with
    | none => exact ⟨[],rfl,fun m hm => (List.not_mem_nil hm).elim⟩
    | some pool =>
      refine ⟨[.cancel (s.caller c)],exec_cons_eq_some.mpr ⟨pool,hq,rfl⟩,fun m hm => ?_⟩
      cases List.mem_singleton.mp hm
      trivial
  cases l with
  | call parts body =>
    simp only [QuicChannel.step] at hst
    split at hst
    · refine hcalls ?_ hst
      intro m hm c r he
      subst he
      rcases List.mem_cons.mp hm with hm | hm
      · cases hm
      · cases List.mem_singleton.mp hm
    · cases hst
  | acquire c => exact hcalls (hands_rpc (by rintro r ⟨⟩)) hst
  | enter c =>
    simp only [QuicChannel.step] at hst
    split at hst
    · split at hst
      · exact hpool hst trivial
      · cases hst
    · cases hst
  | lookup c =>
    refine resume_handing (l := .lookup (s.caller c)) trivial ?_ hst
    intro pool reply hq hp
    obtain ⟨a,hlock,ha⟩ := lookup_answered h.pool hq hp
    obtain ⟨-,-,rfl,-⟩ := h.blocked (.inl hlock)
    exact ha
  | receive c =>
    refine resume_handing (l := .receive (s.caller c)) trivial ?_ hst
    intro pool reply hq hp
    obtain ⟨a,hwait,ha⟩ := receive_answered h.pool hq hp
    obtain ⟨-,-,rfl,-⟩ := h.blocked (.inr hwait)
    exact ha
  | invalidate c =>
    obtain ⟨u,hu,hr⟩ := Option.bind_eq_some_iff.mp hst
    obtain ⟨pool,hq,rfl⟩ := poolStep_eq_some.mp hu
    obtain ⟨limit,hl,rfl⟩ := limitSteps_eq_some.mp hr
    refine ⟨⟨[.invalidate ch.remote],exec_cons_eq_some.mpr ⟨pool,hq,rfl⟩,fun m hm => ?_⟩,_,hl,
      hands_rpc (by rintro r ⟨⟩)⟩
    cases List.mem_singleton.mp hm
    trivial
  | own c m =>
    simp only [QuicChannel.step] at hst
    split at hst
    · rename_i hm
      refine hcalls (hands_rpc fun r he => ?_) hst
      subst he
      cases hm
    · cases hst
  | timeout c => exact habandon (by rintro r ⟨⟩) hst
  | dropCall c => exact habandon (by rintro r ⟨⟩) hst
  | dial k d =>
    simp only [QuicChannel.step] at hst
    split at hst
    · rename_i hd
      exact hpool (q := .connected k) hst ⟨d,hpast,hd⟩
    · rename_i e hd
      exact hpool (q := .connectFailed k e) hst ⟨d,hpast,hd⟩
  | h3 k res =>
    simp only [QuicChannel.step] at hst
    split at hst
    · exact hpool (q := .h3Ready k) hst hpast
    · rename_i e
      exact hpool (q := .h3Failed k e) hst hpast
  | complete k => exact hpool hst trivial
  | answer => exact hpool hst trivial
  | finish => exact hpool hst trivial
  | close k => exact hpool hst trivial
  | tick n =>
    obtain ⟨u,hu,rfl⟩ := Option.map_eq_some_iff.mp hst
    obtain ⟨limit,hl,rfl⟩ := limitSteps_eq_some.mp hu
    refine ⟨⟨[],rfl,fun m hm => (List.not_mem_nil hm).elim⟩,_,hl,fun m hm c r he => ?_⟩
    subst he
    obtain ⟨d,-,hd⟩ := List.mem_map.mp hm
    cases hd

theorem step_origins {past : List Label} (h : ChannelInv p ch s) (hO : Origins ch past s) {l : Label}
    (hst : ch.step p s l = some t) : Origins ch (past ++ [l]) t := by
  have hpast : l ∈ past ++ [l] := List.mem_append_right _ (List.mem_singleton_self l)
  obtain ⟨⟨ps,hps,hconnects⟩,ls,hls,hhands⟩ := step_handing h hpast hst
  refine ⟨?_,?_⟩
  · have htasks : ∀ k task, s.pool.tasks k = some task → ch.Reaches (past ++ [l]) k task.phase :=
      fun k task hk => reaches_mono (List.subset_append_left past [l]) (hO.tasks k task hk)
    exact exec_invariant_of_labels (fun _ _ _ hI hl hst => step_reaches hI hl hst) htasks hconnects hps
  · have hgot : Got (t.pool.Answered ch.remote) s.limit :=
      fun call hc r hr => answered_kept h.pool hps (hO.calls call hc r hr)
    exact exec_invariant_of_labels (fun _ _ _ hI hl hst => ConcurrencyLimit.step_got hI hl hst) hgot hhands hls

theorem exec_origins {ls : List Label} (h : exec (ch.step p) ch.init ls = some s) : Origins ch ls s := by
  have hinit : Origins ch [] ch.init := by
    refine ⟨fun k task hk => ?_,fun call hc => (List.not_mem_nil hc).elim⟩
    cases hk
  have hI := exec_history (I := fun past u => ChannelInv p ch u ∧ Origins ch past u)
    (fun past u l v hu hst => ⟨step_channelInv hu.1 hst,step_origins hu.1 hu.2 hst⟩) ⟨channelInv_init p ch,hinit⟩ h
  exact hI.2

theorem traced_schedule {call : ChannelCall} (h : call.Traced) : Call.ScheduleInv call.req.call call.rpc.call := by
  obtain ⟨ls,hls⟩ := h
  have hinit : Call.ScheduleInv call.req.call Rpc.State.init.call := ⟨rfl,rfl⟩
  refine exec_invariant (I := fun r => Call.ScheduleInv call.req.call r.call) ?_ hinit hls
  intro r l r' hr hst
  rcases rpc_step_frame hst with ⟨e,-,-,-,hcs⟩ | ⟨-,hcall,-⟩
  · exact Call.step_scheduleInv hr hcs
  · rw [hcall]
    exact hr

/-- Whatever the schedule, a connection that a call gets is one that a connect task has
made for the address of the channel, after a dial that went through in this run; and an
error that it gets of the pool is the text of the failure of such a task: of its dial, or
of the h3 setup over the connection dialled. -/
theorem attempts_traced (p : Platform) (ch : QuicChannel Addr) {ls : List Label}
    (h : exec (ch.step p) ch.init ls = some s) {c : ℕ} {call : ChannelCall} (hc : s.call c = some call) :
    (∀ entry, .pooled entry ∈ call.rpc.call.log →
      ∃ k, ch.Made ls k ∧ s.pool.tasks k = some ⟨ch.remote,.completed (.ok entry)⟩) ∧
    ∀ e, .poolFailed e ∈ call.rpc.call.log → ∃ k e₀, ch.Failed ls k e₀ ∧ e = .streamIo e₀.toString ∧
      s.pool.tasks k = some ⟨ch.remote,.completed (.error e₀)⟩ := by
  have hO := exec_origins h
  have hgot := hO.calls call (List.mem_of_getElem? hc)
  refine ⟨fun entry ha => ?_,fun e ha => ?_⟩
  · obtain ⟨k,res,hk,hres⟩ := hgot _ ((Call.mem_got.1 entry).mpr ha)
    have hr := hO.tasks k _ hk
    cases res with
    | ok entry' =>
      cases hres
      exact ⟨k,hr,hk⟩
    | error e => cases hres
  · obtain ⟨k,res,hk,hres⟩ := hgot _ ((Call.mem_got.2 e).mpr ha)
    have hr := hO.tasks k _ hk
    cases res with
    | ok entry => cases hres
    | error e₀ =>
      cases hres
      exact ⟨k,e₀,hr,rfl,hk⟩

/-- Every dial of the run ends in this error. -/
def QuicChannel.Undialable (ch : QuicChannel Addr) (e : ClientError) (ls : List Label) : Prop :=
  ∀ k dial, .dial k dial ∈ ls → ch.connectFn dial = .error e

omit [DecidableEq Addr] in
theorem QuicChannel.Undialable.not_made {e : ClientError} {ls : List Label} (he : ch.Undialable e ls) (k : ℕ) :
    ¬ ch.Dialled ls k (.ok ()) := by
  rintro ⟨dial,hd,hres⟩
  cases (he k dial hd).symm.trans hres

theorem QuicChannel.Undialable.got {e : ClientError} {ls : List Label} (he : ch.Undialable e ls)
    (h : exec (ch.step p) ch.init ls = some s) {c : ℕ} {call : ChannelCall} (hc : s.call c = some call) :
    ∀ r ∈ Call.got call.rpc.call.log, r = .error (.streamIo e.toString) := by
  intro r hr
  have hO := exec_origins h
  obtain ⟨k,res,hk,rfl⟩ := hO.calls call (List.mem_of_getElem? hc) r hr
  have hres := hO.tasks k _ hk
  cases res with
  | ok entry => exact (he.not_made k hres.1).elim
  | error x =>
    rcases hres with ⟨dial,hd,hx⟩ | ⟨hd,-⟩
    · cases (he k dial hd).symm.trans hx
      rfl
    · exact (he.not_made k hd).elim

/-- A builder takes the TLS configuration of a server like any other. Nothing but the
refusal of the endpoint then reaches the calls. -/
theorem serverRole_got [SocketAddr Addr] {b : QuicChannelBuilder Addr} {addrStr : String} {config : ℕ}
    (hb : (b.withTls (.server config)).connect addrStr = .ok ch) {ls : List Label}
    (h : exec (ch.step p) ch.init ls = some s) {c : ℕ} {call : ChannelCall} (hc : s.call c = some call) :
    ∀ r ∈ Call.got call.rpc.call.log,
      r = .error (.streamIo (ClientError.transport (.tls "expected client config")).toString) := by
  obtain ⟨remote,-,hch⟩ := QuicChannelBuilder.connect_eq_ok.mp hb
  have htls : ch.tls = some (.server config) := by
    rw [hch]
    rfl
  have hno : ch.Undialable (.transport (.tls "expected client config")) ls :=
    fun _ dial _ => QuicChannel.connectFn_server htls dial
  exact hno.got h hc

/-- Where no dial of the run succeeds, no connect task makes a connection, and every call
fails in the pool each time its policy lets it try, waits in between as the policy says,
and reports that failure at the end. -/
theorem undialable_calls_fail (p : Platform) (ch : QuicChannel Addr) {e : ClientError} {ls : List Label}
    (he : ∀ k dial, .dial k dial ∈ ls → ch.connectFn dial = .error e)
    (h : exec (ch.step p) ch.init ls = some s) :
    (∀ k a entry, s.pool.tasks k ≠ some ⟨a,.completed (.ok entry)⟩) ∧
    ∀ c call, s.call c = some call →
      call.rpc.call.log <+: Call.failures call.req.call (.streamIo e.toString) ch.retry.maxAttempts ∧
      ∀ res, call.rpc.call.phase = .done res →
        call.rpc.call.log = Call.failures call.req.call (.streamIo e.toString) ch.retry.maxAttempts ∧
        res = .error (if ch.retry.maxAttempts = 0 then .retriesExhausted 0 "no error captured"
          else .streamIo e.toString) := by
  have hinv := exec_channelInv h
  refine ⟨fun k a entry hk => QuicChannel.Undialable.not_made he k ((exec_origins h).tasks k _ hk).1,
    fun c call hc => ?_⟩
  have hretry : call.req.call.retry = ch.retry := (hinv.call c call hc).policy
  obtain ⟨hlog,hdone⟩ :=
    (traced_schedule (hinv.traced call (List.mem_of_getElem? hc))).failures (QuicChannel.Undialable.got he h hc)
  rw [hretry] at hlog hdone
  refine ⟨hlog,fun res hres => ?_⟩
  rcases hdone res hres with rfl | hdone
  · rcases (hinv.call c call hc).result _ hres with ⟨m,hm⟩ | ⟨m,hm,-⟩ | ⟨-,hm⟩ <;> cases hm
  · exact hdone

theorem attempts_traced_failedDial : ∃ (s : State ℕ) (call : ChannelCall),
    exec (singleAttempt.step plainPlatform) singleAttempt.init failedDial = some s ∧ s.call 0 = some call ∧
      ∀ e, .poolFailed e ∈ call.rpc.call.log → ∃ k e₀, singleAttempt.Failed failedDial k e₀ ∧
        e = .streamIo e₀.toString ∧ s.pool.tasks k = some ⟨singleAttempt.remote,.completed (.error e₀)⟩ := by
  obtain ⟨s,call,-,h,hc,-⟩ := failedDial_fails
  exact ⟨s,call,h,hc,(attempts_traced plainPlatform singleAttempt h hc).2⟩

theorem failedDial_undialable : singleAttempt.Undialable (.transport (.connection "timed out")) failedDial := by
  intro k dial hd
  unfold failedDial at hd
  simp only [List.mem_cons,reduceCtorEq,false_or,Label.dial.injEq,List.not_mem_nil,or_false] at hd
  obtain ⟨-,rfl⟩ := hd
  rfl

theorem undialable_calls_fail_failedDial : ∃ (s : State ℕ) (call : ChannelCall),
    exec (singleAttempt.step plainPlatform) singleAttempt.init failedDial = some s ∧ s.call 0 = some call ∧
      call.rpc.call.phase =
        .done (.error (.streamIo (ClientError.transport (.connection "timed out")).toString)) := by
  obtain ⟨s,call,e,h,hc,hres⟩ := failedDial_fails
  have hcall := (undialable_calls_fail plainPlatform singleAttempt failedDial_undialable h).2 0 call hc
  obtain ⟨-,he⟩ := hcall.2 _ hres
  exact ⟨s,call,h,hc,he ▸ hres⟩

end GrpcQuic.Client
