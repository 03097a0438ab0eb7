import GrpcQuic.Client.ChannelCalls
import GrpcQuic.Client.PoolDials
import GrpcQuic.Client.SessionReuse

/-! # What the pool hands out

Every result is that of a connect task, and a connection that stays open stays in
its slot: whoever asks for it then gets it at once, and nobody dials again.
-/
namespace GrpcQuic.Pool
open Transition
variable {Addr ι : Type*} [DecidableEq Addr] [DecidableEq ι] {s t : State Addr ι}

def State.Answered (s : State Addr ι) (a : Addr) (r : PoolResult) : Prop :=
  ∃ k res, s.tasks k = some ⟨a,.completed res⟩ ∧ r = waiterResult res

theorem answered_kept (h : Inv s) {ls : List (Label Addr ι)} (hst : exec step s ls = some t) {a : Addr}
    {r : PoolResult} (hr : s.Answered a r) : t.Answered a r := by
  have hI : Inv t ∧ t.Answered a r := by
    refine exec_invariant (I := fun u => Inv u ∧ u.Answered a r) ?_ ⟨h,hr⟩ hst
    rintro u l v ⟨hu,k,res,hk,hres⟩ hv
    exact ⟨step_inv hu hv,k,res,step_completed hu.slots hv hk,hres⟩
  exact hI.2

theorem lookup_answered (h : Inv s) {i : ι} (hst : step s (.lookup i) = some t) {reply : Reply}
    (hr : t.phase i = .returned reply) : ∃ a, s.phase i = .locking a ∧ t.Answered a reply.result := by
  obtain ⟨a,hp,-,rfl⟩ := step_lookup hst
  refine ⟨a,hp,?_⟩
  rcases getOrConnect_cases s i a with ⟨e,hm,-,hg⟩ | ⟨ws,-,hg⟩ | ⟨-,-,hg⟩ <;> rw [hg] at hr ⊢
  · cases (Function.update_self ..).symm.trans hr
    exact ⟨_,.ok e,h.slots.installed a e hm,rfl⟩
  · cases (Function.update_self ..).symm.trans hr
  · cases (Function.update_self ..).symm.trans hr

theorem receive_answered (h : Inv s) {i : ι} (hst : step s (.receive i) = some t) {reply : Reply}
    (hr : t.phase i = .returned reply) : ∃ a, s.phase i = .waiting a ∧ t.Answered a reply.result := by
  have hinv := step_inv h hst
  obtain ⟨a,hp,⟨r,rest,hs,rfl⟩ | ⟨-,-,rfl⟩⟩ := step_receive hst
  · cases (Function.update_self ..).symm.trans hr
    obtain ⟨k,hj⟩ := h.senders.blocked i a hp
    obtain ⟨res,hk,rfl⟩ := h.sent_eq hj (hs ▸ List.mem_cons_self)
    exact ⟨a,hp,k,res,hk,rfl⟩
  · exact (hinv.senders.noFallback i (Function.update_self ..)).elim

/-- What the pool keeps to as long as the connection `e` to `a` is open: it stays in
its slot, no connect task for `a` is new since `s`, and who asked for `a` at `s` got it. -/
structure Reuses (s : State Addr ι) (a : Addr) (e : PoolEntry) (t : State Addr ι) : Prop where
  slot : t.map a = some (.ready e)
  dials : ∀ k task, t.tasks k = some task → task.addr = a → ∃ old, s.tasks k = some old ∧ old.addr = a
  asked : ∀ i, s.phase i = .locking a →
    t.phase i = .locking a ∨ t.phase i = .cancelled ∨ t.phase i = .returned (.reused e)

/-- A caller that has asked for an address with an open connection gets it, unless it
is cancelled. -/
theorem step_asked {l : Label Addr ι} (h : step s l = some t) {i : ι} {a : Addr} {e : PoolEntry}
    (he : s.map a = some (.ready e)) (ho : s.isClosed e.quic = false)
    (hi : s.phase i = .locking a ∨ s.phase i = .cancelled ∨ s.phase i = .returned (.reused e)) :
    t.phase i = .locking a ∨ t.phase i = .cancelled ∨ t.phase i = .returned (.reused e) := by
  by_cases hl : l.caller = some i
  · cases l with
    | enter j b =>
      cases hl
      obtain ⟨hp,-⟩ := step_enter h
      rcases hi with hi | hi | hi <;> cases hp.symm.trans hi
    | lookup j =>
      cases hl
      obtain ⟨b,hp,-,rfl⟩ := step_lookup h
      rcases hi with hi | hi | hi <;> cases hp.symm.trans hi
      rcases getOrConnect_cases s i a with ⟨e',he',-,hg⟩ | ⟨ws,he',-⟩ | ⟨-,hcl,-⟩
      · cases he.symm.trans he'
        rw [hg]
        exact .inr (.inr (Function.update_self ..))
      · cases he.symm.trans he'
      · cases ho.symm.trans (hcl e he)
    | cancel j =>
      cases hl
      obtain ⟨-,rfl⟩ := step_cancel h
      exact .inr (.inl (Function.update_self ..))
    | receive j =>
      cases hl
      obtain ⟨b,hp,-⟩ := step_receive h
      rcases hi with hi | hi | hi <;> cases hp.symm.trans hi
    | _ => cases hl
  · rwa [step_phase h hl]

theorem step_reuses {u : State Addr ι} {a : Addr} {e : PoolEntry} (hI : Inv t) (h : Reuses s a e t)
    (ho : t.isClosed e.quic = false) {l : Label Addr ι} (hst : step t l = some u) (ho' : u.isClosed e.quic = false) :
    Reuses s a e u := by
  have hkept := step_completed hI.slots hst (hI.slots.installed a e h.slot)
  refine ⟨(step_inv hI hst).slots.openReady _ a e hkept ho',fun k task hk ha => ?_,fun i hi => ?_⟩
  · rcases step_taskPhase hst hk with hsame | ⟨-,hcl⟩ | ⟨old,hold,-⟩
    · exact h.dials k task hsame ha
    · cases ho.symm.trans (hcl e (ha ▸ h.slot))
    · exact h.dials k _ hold ha
  · exact step_asked hst h.slot ho (h.asked i hi)

/-- As long as an installed connection is open the pool keeps it: it starts no other
connect task for the address, and whoever asks for the address and is not cancelled
gets this connection, at once and without a dial. -/
theorem open_connection_reused {ls ms : List (Label Addr ι)} (h : exec step State.init ls = some s)
    (hm : exec step s ms = some t) {a : Addr} {e : PoolEntry} (he : s.map a = some (.ready e))
    (ho : t.isClosed e.quic = false) :
    t.map a = some (.ready e) ∧
    (∀ k task, t.tasks k = some task → task.addr = a → ∃ old, s.tasks k = some old ∧ old.addr = a) ∧
    ∀ i, s.phase i = .locking a →
      t.phase i = .locking a ∨ t.phase i = .cancelled ∨ t.phase i = .returned (.reused e) := by
  have hstart : Reuses s a e s := ⟨he,fun k task hk ha => ⟨task,hk,ha⟩,fun i hi => .inl hi⟩
  have hI : Inv t ∧ (t.isClosed e.quic = false → Reuses s a e t) := by
    refine exec_invariant (I := fun u => Inv u ∧ (u.isClosed e.quic = false → Reuses s a e u)) ?_
      ⟨exec_inv h,fun _ => hstart⟩ hm
    rintro u l v ⟨hu,hr⟩ hst
    refine ⟨step_inv hu hst,fun hv => ?_⟩
    have hu' := (step_change hst).closed e.quic hv
    exact step_reuses hu (hr hu') hu' hst hv
  obtain ⟨hslot,hdials,hasked⟩ := hI.2 ho
  exact ⟨hslot,hdials,hasked⟩

def askedAgain : List (Label ℕ ℕ) :=
  [.enter 0 7,.lookup 0,.connected 0,.h3Ready 0,.complete 0,.answer,.finish,.enter 1 7]

def reused : List (Label ℕ ℕ) := [.receive 0,.invalidate 7,.lookup 1]

theorem askedAgain_reused : ∃ s t e, exec step State.init askedAgain = some s ∧ exec step s reused = some t ∧
    s.map 7 = some (.ready e) ∧ t.isClosed e.quic = false ∧ s.phase 1 = .locking 7 :=
  ⟨_,_,_,rfl,rfl,rfl,rfl,rfl⟩

theorem open_connection_reused_askedAgain : ∃ (s t : State ℕ ℕ) (e : PoolEntry),
    exec step State.init askedAgain = some s ∧ exec step s reused = some t ∧ t.map 7 = some (.ready e) ∧
      (t.phase 1 = .locking 7 ∨ t.phase 1 = .cancelled ∨ t.phase 1 = .returned (.reused e)) := by
  obtain ⟨s,t,e,hs,ht,he,ho,hp⟩ := askedAgain_reused
  obtain ⟨hslot,-,hasked⟩ := open_connection_reused hs ht he ho
  exact ⟨s,t,e,hs,ht,hslot,hasked 1 hp⟩

end GrpcQuic.Pool
