import GrpcQuic.Client.ChannelSystem

/-! # One call among the calls of a channel

What a schedule of the semaphore and the calls does to a single one: its future
takes its own steps, and the others stay as they are.
-/
namespace GrpcQuic.ConcurrencyLimit
open Transition
variable {s t : State} {call : ChannelCall} {c : ℕ}

theorem release_rpc (permits : ℕ) (call : ChannelCall) :
    (release permits call).2.req = call.req ∧ (release permits call).2.rpc = call.rpc := by
  unfold release
  split <;> exact ⟨rfl,rfl⟩

theorem step_rpc_cases {l : Rpc.Label} (h : step s (.rpc c l) = some t) :
    ∃ call call', s.calls[c]? = some call ∧ Rpc.step call.req call.rpc l = some call'.rpc ∧
      call'.req = call.req ∧ t.calls = s.calls.set c call' := by
  obtain ⟨call,hc,h⟩ := Option.bind_eq_some_iff.mp h
  obtain ⟨⟨permits,next⟩,ha,h⟩ := Option.bind_eq_some_iff.mp h
  obtain ⟨rpc,hrpc,rfl⟩ := Option.map_eq_some_iff.mp h
  have hnext : next.req = call.req ∧ next.rpc = call.rpc := by
    rcases acquire_cases ha with ⟨-,-,rfl⟩ | ⟨-,-,rfl⟩ <;> exact ⟨rfl,rfl⟩
  obtain ⟨hreq,hr⟩ := release_rpc permits { next with rpc }
  refine ⟨call,(release permits { next with rpc }).2,hc,?_,hreq.trans hnext.1,rfl⟩
  rw [hr,← hnext.1,← hnext.2]
  exact hrpc

theorem exec_rpc_cases {ls : List Rpc.Label} (hc : s.calls[c]? = some call)
    (h : exec step s (ls.map (.rpc c)) = some t) :
    ∃ call', exec (Rpc.step call.req) call.rpc ls = some call'.rpc ∧ call'.req = call.req ∧
      t.calls = s.calls.set c call' := by
  induction ls generalizing s call with
  | nil =>
    cases h
    refine ⟨call,rfl,rfl,?_⟩
    obtain ⟨hlt,rfl⟩ := List.getElem?_eq_some_iff.mp hc
    exact (List.set_getElem_self hlt).symm
  | cons l ls ih =>
    obtain ⟨u,hu,hrest⟩ := exec_cons_eq_some.mp h
    obtain ⟨call₀,call₁,hc₀,hst,hreq,hset⟩ := step_rpc_cases hu
    cases hc.symm.trans hc₀
    have hlt := (List.getElem?_eq_some_iff.mp hc).1
    have hc₁ : u.calls[c]? = some call₁ := by
      rw [hset]
      exact List.getElem?_set_self hlt
    obtain ⟨call',hrun,hreq',hset'⟩ := ih hc₁ hrest
    rw [hreq] at hrun
    refine ⟨call',exec_cons_eq_some.mpr ⟨_,hst,hrun⟩,hreq'.trans hreq,?_⟩
    rw [hset',hset,List.set_set]

theorem exec_rpc_some {ls : List Rpc.Label} (hne : ls ≠ []) (h : exec step s (ls.map (.rpc c)) = some t) :
    ∃ call, s.calls[c]? = some call := by
  cases ls with
  | nil => exact (hne rfl).elim
  | cons l ls =>
    obtain ⟨u,hu,-⟩ := exec_cons_eq_some.mp h
    obtain ⟨call,-,hc,-⟩ := step_rpc_cases hu
    exact ⟨call,hc⟩

/-- The clock moves the timers of all calls, and nothing else. -/
theorem exec_ticks {m n : ℕ} (hm : m ≤ s.calls.length)
    (h : exec step s ((List.range m).map fun c => .rpc c (.tick n)) = some t) :
    t.calls.length = s.calls.length ∧ ∀ c call, s.calls[c]? = some call →
      ∃ call', t.calls[c]? = some call' ∧ call'.req = call.req ∧
        call'.rpc = if c < m then { call.rpc with now := call.rpc.now + n } else call.rpc := by
  induction m generalizing t with
  | zero =>
    cases h
    exact ⟨rfl,fun c call hc => ⟨call,hc,rfl,rfl⟩⟩
  | succ m ih =>
    rw [List.range_succ,List.map_append,exec_append] at h
    obtain ⟨u,hu,hlast⟩ := Option.bind_eq_some_iff.mp h
    obtain ⟨v,hv,hvt⟩ := exec_cons_eq_some.mp hlast
    cases hvt
    obtain ⟨hlen,hall⟩ := ih (by omega) hu
    obtain ⟨call₀,call₁,hc₀,hst,hreq,hset⟩ := step_rpc_cases hv
    have hlt := (List.getElem?_eq_some_iff.mp hc₀).1
    refine ⟨by rw [hset,List.length_set,hlen],fun c call hc => ?_⟩
    obtain ⟨call',hc',hreq',hrpc'⟩ := hall c call hc
    by_cases hcm : m = c
    · subst hcm
      cases hc₀.symm.trans hc'
      refine ⟨call₁,by rw [hset]; exact List.getElem?_set_self hlt,hreq.trans hreq',?_⟩
      rw [if_neg (Nat.lt_irrefl m)] at hrpc'
      rw [if_pos (Nat.lt_succ_self m),← hrpc']
      exact (Option.some.inj hst).symm
    · refine ⟨call',by rw [hset,List.getElem?_set_ne hcm]; exact hc',hreq',?_⟩
      rw [hrpc']
      exact if_congr (by omega) rfl rfl

/-- What a call is, a run of its own future has made it. -/
def ChannelCall.Traced (call : ChannelCall) : Prop :=
  ∃ ls, exec (Rpc.step call.req) Rpc.State.init ls = some call.rpc

theorem step_traced (h : ∀ call ∈ s.calls, call.Traced) {l : Label} (hst : step s l = some t) :
    ∀ call ∈ t.calls, call.Traced := by
  cases l with
  | call req =>
    cases hst
    intro call hc
    rcases List.mem_append.mp hc with hc | hc
    · exact h call hc
    · cases List.mem_singleton.mp hc
      exact ⟨[],rfl⟩
  | rpc c m =>
    obtain ⟨call₀,call₁,hc₀,hm,hreq,hset⟩ := step_rpc_cases hst
    intro call hc
    rw [hset] at hc
    rcases List.mem_or_eq_of_mem_set hc with hc | rfl
    · exact h call hc
    · obtain ⟨ls,hls⟩ := h call₀ (List.mem_of_getElem? hc₀)
      refine ⟨ls ++ [m],?_⟩
      rw [hreq,exec_append,hls]
      exact exec_cons_eq_some.mpr ⟨_,hm,rfl⟩

end GrpcQuic.ConcurrencyLimit

namespace GrpcQuic.Pool
variable {Addr ι : Type*} [DecidableEq Addr] [DecidableEq ι] {s t : State Addr ι}

def State.Installed (s : State Addr ι) (a : Addr) (e : PoolEntry) : Prop :=
  ∃ k, s.tasks k = some ⟨a,.completed (.ok e)⟩

def State.Handed (s : State Addr ι) (a : Addr) : PoolResult → Prop
  | .ok e => s.Installed a e
  | .error e => ∃ m, e = .streamIo m

omit [DecidableEq Addr] [DecidableEq ι] in
theorem handed_waiterResult {k : ℕ} {a : Addr} {res : PoolResult} (h : s.tasks k = some ⟨a,.completed res⟩) :
    s.Handed a (waiterResult res) := by
  cases res with
  | ok e => exact ⟨k,h⟩
  | error e => exact ⟨_,rfl⟩

theorem lookup_returns (h : Inv s) {i : ι} (hst : step s (.lookup i) = some t) :
    ∃ a, s.phase i = .locking a ∧
      (t.phase i = .waiting a ∨ ∃ reply, t.phase i = .returned reply ∧ t.Handed a reply.result) := by
  obtain ⟨a,hp,-,rfl⟩ := step_lookup hst
  refine ⟨a,hp,?_⟩
  rcases getOrConnect_cases s i a with ⟨e,hm,-,hg⟩ | ⟨ws,-,hg⟩ | ⟨-,-,hg⟩
  · rw [hg]
    exact .inr ⟨.reused e,Function.update_self ..,_,h.slots.installed a e hm⟩
  · rw [hg]
    exact .inl (Function.update_self ..)
  · rw [hg]
    exact .inl (Function.update_self ..)

theorem receive_returns (h : Inv s) {i : ι} (hst : step s (.receive i) = some t) :
    ∃ a reply, s.phase i = .waiting a ∧ t.phase i = .returned reply ∧ t.Handed a reply.result := by
  have hinv := step_inv h hst
  obtain ⟨a,hp,⟨r,rest,hs,rfl⟩ | ⟨-,-,rfl⟩⟩ := step_receive hst
  · obtain ⟨k,hj⟩ := h.senders.blocked i a hp
    obtain ⟨res,hk,rfl⟩ := h.sent_eq hj (hs ▸ List.mem_cons_self)
    exact ⟨a,.answered (waiterResult res),hp,Function.update_self ..,
      handed_waiterResult (s := s.setPhase i (.returned (.answered (waiterResult res)))) hk⟩
  · exact (hinv.senders.noFallback i (Function.update_self ..)).elim

end GrpcQuic.Pool
