import GrpcQuic.Server.Peers
import Mathlib.Data.List.Count

/-! # The handshakes of the accept loop

Each attempt that `inner.accept` hands out is awaited to its end before the next
one, and a successful handshake starts one connection task. Only the handshake that
the shutdown signal interrupts can be lost.
-/
namespace GrpcQuic.Peers
open Transition Server

def State.handshakes (s : State) (n : ℕ) : ℕ := (s.attempts.take n).count (.complete true)

structure Served (n : ℕ) (s : State) : Prop where
  ended : Progress.incomplete ∉ s.attempts.take n
  accepted : s.server.conns.length = s.handshakes n
  counted : s.server.connections = s.server.conns.length
  within : n ≤ s.taken
  last : s.taken ≤ n + 1
  accepting : s.server.phase = .accepting → n = s.taken
  connecting : s.server.phase = .connecting → s.taken = n + 1

variable {s t : State} {n : ℕ} {l : Label}

theorem step_attempts_kept (h : step s l = some t) (hn : n ≤ s.attempts.length)
    (hended : Progress.incomplete ∉ s.attempts.take n) : t.attempts.take n = s.attempts.take n := by
  have hset {i : ℕ} (hi : s.attempts[i]? = some .incomplete) (p : Progress Bool) :
      (s.attempts.set i p).take n = s.attempts.take n := by
    refine List.take_set_of_le (Nat.le_of_not_lt fun hlt => hended ?_)
    rw [← List.getElem?_take_of_lt hlt] at hi
    exact List.mem_of_getElem? hi
  rcases step_attempts h with ⟨-,-,ha | ha | ⟨i,ok,-,hi,ha⟩⟩ | ⟨-,-,-,-,ha⟩ | ⟨-,-,-,ha,-⟩ | ⟨-,-,ha⟩ <;> rw [ha]
  · exact List.take_append_of_le_length hn
  · exact hset hi _

theorem Served.stay (h : Served n s) (ha : t.attempts.take n = s.attempts.take n) (htaken : t.taken = s.taken)
    (hlen : t.server.conns.length = s.server.conns.length) (hcount : t.server.connections = s.server.connections)
    (hp : t.server.phase = s.server.phase ∨ t.server.phase.Stopped) : Served n t := by
  have hphase {q : LoopPhase} (hq : ¬ q.Stopped) (ht : t.server.phase = q) : s.server.phase = q := by
    rcases hp with hp | hp
    · exact hp ▸ ht
    · exact (hq (ht ▸ hp)).elim
  refine ⟨ha ▸ h.ended,?_,?_,htaken ▸ h.within,htaken ▸ h.last,fun ht => ?_,fun ht => ?_⟩
  · rw [hlen,State.handshakes,ha]
    exact h.accepted
  · rw [hcount,hlen]
    exact h.counted
  · rw [htaken]
    exact h.accepting (hphase accepting_not_stopped ht)
  · rw [htaken]
    exact h.connecting (hphase connecting_not_stopped ht)

theorem step_served (hI : PeersInv s) (h : Served n s) (hst : step s l = some t) : ∃ m, Served m t := by
  have hkept := step_attempts_kept hst (h.within.trans hI.arrived) h.ended
  have htaken := step_attempts hst
  cases l with
  | attempt =>
    cases hst
    exact ⟨n,h.stay hkept rfl rfl rfl (.inl rfl)⟩
  | complete i ok =>
    simp only [step] at hst
    split at hst
    · cases hst
      exact ⟨n,h.stay hkept rfl rfl rfl (.inl rfl)⟩
    · cases hst
  | port d m =>
    obtain ⟨moved,-,hst⟩ := Option.bind_eq_some_iff.mp hst
    obtain ⟨next,-,rfl⟩ := Option.map_eq_some_iff.mp hst
    exact ⟨n,h.stay hkept rfl List.length_set rfl (.inl rfl)⟩
  | server m =>
    simp only [step] at hst
    split at hst
    · rename_i hready
      obtain ⟨server,hm,rfl⟩ := Option.map_eq_some_iff.mp hst
      cases m with
      | incoming =>
        cases hp : s.server.phase <;> simp only [Server.step,hp,reduceCtorEq] at hm
        cases hm
        have hn := h.accepting hp
        refine ⟨n,⟨h.ended,h.accepted,h.counted,?_,?_,by rintro ⟨⟩,fun _ => ?_⟩⟩
        · exact h.within.trans (Nat.le_succ _)
        · exact Nat.succ_le_succ hn.ge
        · exact congrArg (· + 1) hn.symm
      | handshake ok =>
        cases hp : s.server.phase <;> simp only [Server.step,hp,reduceCtorEq] at hm
        have hn := h.connecting hp
        have hget : s.attempts[n]? = some (.complete ok) := by
          have hlast := of_decide_eq_true hready
          rwa [hn,Nat.add_sub_cancel] at hlast
        have htake : s.attempts.take (n + 1) = s.attempts.take n ++ [.complete ok] := by
          rw [List.take_add_one,hget]
          rfl
        have hended : Progress.incomplete ∉ s.attempts.take (n + 1) := by
          rw [htake]
          simpa using h.ended
        have hsum : s.handshakes (n + 1) = s.handshakes n + if ok then 1 else 0 := by
          rw [State.handshakes,htake,List.count_append]
          cases ok <;> rfl
        cases ok with
        | true =>
          cases hm
          refine ⟨n + 1,⟨hended,?_,?_,hn.ge,Nat.le_succ_of_le hn.le,fun _ => hn.symm,by rintro ⟨⟩⟩⟩
          · refine (List.length_append).trans ?_
            rw [h.accepted]
            exact hsum.symm
          · refine Eq.trans ?_ List.length_append.symm
            exact congrArg (· + 1) h.counted
        | false =>
          cases hm
          refine ⟨n + 1,⟨hended,?_,h.counted,hn.ge,Nat.le_succ_of_le hn.le,fun _ => hn.symm,by rintro ⟨⟩⟩⟩
          exact h.accepted.trans hsum.symm
      | endpointClosed =>
        cases hp : s.server.phase <;> simp only [Server.step,hp,reduceCtorEq] at hm
        cases hm
        exact ⟨n,h.stay hkept rfl rfl rfl (.inr (.inl rfl))⟩
      | signal =>
        cases hp : s.server.phase <;> simp only [Server.step,hp,reduceCtorEq] at hm <;> cases hm <;>
          exact ⟨n,h.stay hkept rfl (List.length_map _) rfl (.inr (.inl rfl))⟩
      | conn d k => cases hready
      | joined d =>
        cases hp : s.server.phase <;> simp only [Server.step,hp,reduceCtorEq] at hm
        split at hm
        · cases hm
          exact ⟨n,h.stay hkept rfl rfl rfl (.inr (.inl rfl))⟩
        · cases hm
      | drained =>
        simp only [Server.step] at hm
        split at hm
        · cases hm
          exact ⟨n,h.stay hkept rfl rfl rfl (.inr (.inr ⟨_,rfl⟩))⟩
        · cases hm
      | timeout =>
        cases hp : s.server.phase <;> simp only [Server.step,hp,reduceCtorEq] at hm
        cases hm
        exact ⟨n,h.stay hkept rfl (List.length_map _) rfl (.inr (.inr ⟨_,rfl⟩))⟩
    · cases hst

theorem handshakes_succ_le (s : State) (n : ℕ) : s.handshakes (n + 1) ≤ s.handshakes n + 1 := by
  rw [State.handshakes,List.take_add_one,List.count_append]
  refine Nat.add_le_add_left ?_ _
  cases s.attempts[n]? with
  | none => exact Nat.zero_le 1
  | some p => exact List.count_le_length

/-- The accept loop starts and counts one connection task for each successful
handshake, in every state: it takes no attempt before it is done with the last one,
and only a handshake that the shutdown interrupts can be without its connection. -/
theorem handshakes_accepted (server : QuicServer) {ls : List Label} (h : exec step (.init server) ls = some s) :
    s.server.connections = s.server.conns.length ∧
    (s.server.phase = .accepting → s.server.conns.length = s.handshakes s.taken) ∧
    (s.server.phase = .connecting → s.server.conns.length = s.handshakes (s.taken - 1)) ∧
    s.server.conns.length ≤ s.handshakes s.taken ∧ s.handshakes s.taken ≤ s.server.conns.length + 1 := by
  have hI : PeersInv s ∧ ∃ n, Served n s := by
    refine exec_invariant (I := fun u => PeersInv u ∧ ∃ n, Served n u) ?_ ⟨peersInv_init server,0,?_⟩ h
    · exact fun u l v hu hst => ⟨step_peersInv hu.1 hst,hu.2.elim fun n hn => step_served hu.1 hn hst⟩
    · exact ⟨List.not_mem_nil,rfl,rfl,Nat.le_refl 0,Nat.zero_le 1,fun _ => rfl,by rintro ⟨⟩⟩
  obtain ⟨n,hn⟩ := hI.2
  have hmono : s.handshakes n ≤ s.handshakes s.taken :=
    (List.take_prefix_take_left hn.within).sublist.count_le _
  refine ⟨hn.counted,fun hp => ?_,fun hp => ?_,?_,?_⟩
  · rw [← hn.accepting hp]
    exact hn.accepted
  · rw [hn.connecting hp]
    exact hn.accepted
  · rw [hn.accepted]
    exact hmono
  · rw [hn.accepted]
    rcases Nat.eq_or_lt_of_le hn.last with hlast | hlt
    · rw [hlast]
      exact handshakes_succ_le s n
    · have hle : s.taken = n := by
        have hwithin := hn.within
        omega
      rw [hle]
      exact Nat.le_succ _

/-- Of three attempts the second fails, and the signal interrupts the third. -/
def interrupted : List Label :=
  [.attempt,.attempt,.complete 1 false,.attempt,.complete 0 true,.server .incoming,.server (.handshake true),
    .server .incoming,.server (.handshake false),.server .incoming,.server .signal,.complete 2 true]

theorem interrupted_state : ∃ s, exec step (.init ⟨256⟩) interrupted = some s ∧ s.server.conns.length = 1 ∧
    s.handshakes s.taken = 2 := ⟨_,rfl,rfl,rfl⟩

theorem handshakes_accepted_interrupted : ∃ s, exec step (.init ⟨256⟩) interrupted = some s ∧
    s.server.connections = s.server.conns.length ∧ s.handshakes s.taken ≤ s.server.conns.length + 1 := by
  obtain ⟨s,h,-⟩ := interrupted_state
  obtain ⟨hcount,-,-,-,hle⟩ := handshakes_accepted ⟨256⟩ h
  exact ⟨s,h,hcount,hle⟩

end GrpcQuic.Peers
