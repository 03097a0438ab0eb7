import GrpcQuic.Client.PoolProgress

/-! # The map mutex is fair

`tokio::sync::Mutex` hands itself on in the order in which it was asked for: by the
callers before their lookup, by the connect tasks with their results and by the calls
of `invalidate`. Nobody overtakes; whoever gives up leaves the queue.
-/
namespace GrpcQuic.Pool
open Transition

/-- Who can wait for the mutex. An `invalidate` call is named by its caller. -/
inductive Party (Addr ι : Type*) where
  | caller (i : ι)
  | task (k : ℕ)
  | evictor (i : ι) (addr : Addr)
  deriving DecidableEq

/-- The pool, and who waits for its mutex; the first of them has it, as soon as the
completing task lets go. -/
structure Fair (Addr ι : Type*) where
  pool : State Addr ι
  queue : List (Party Addr ι)

def Fair.init {Addr ι : Type*} : Fair Addr ι := ⟨.init,[]⟩

inductive FairLabel (Addr ι : Type*) where
  | act (l : Label Addr ι)
  | ask (i : ι) (addr : Addr)
  | evict (i : ι) (addr : Addr)
  | giveUp (i : ι) (addr : Addr)

variable {Addr ι : Type*}

def Label.asks : Label Addr ι → Option (Party Addr ι)
  | .enter i _ => some (.caller i)
  | .connectFailed k _ => some (.task k)
  | .h3Ready k => some (.task k)
  | .h3Failed k _ => some (.task k)
  | _ => none

def Label.locks : Label Addr ι → Option (Party Addr ι)
  | .lookup i => some (.caller i)
  | .complete k => some (.task k)
  | _ => none

def Label.leaves : Label Addr ι → Option (Party Addr ι)
  | .cancel i => some (.caller i)
  | l => l.locks

def Label.evicts : Label Addr ι → Bool
  | .invalidate _ => true
  | _ => false

variable [DecidableEq Addr] [DecidableEq ι]

def Fair.step (s : Fair Addr ι) : FairLabel Addr ι → Option (Fair Addr ι)
  | .act (.invalidate _) => none
  | .act l =>
    if l.locks.all fun q => s.queue.head? = some q then
      (Pool.step s.pool l).map fun pool =>
        ⟨pool,(l.leaves.elim s.queue s.queue.erase) ++ l.asks.toList⟩
    else none
  | .ask i addr =>
    if .evictor i addr ∈ s.queue then none
    else some { s with queue := s.queue ++ [.evictor i addr] }
  | .evict i addr =>
    if s.queue.head? = some (.evictor i addr) then
      (Pool.step s.pool (.invalidate addr)).map fun pool => ⟨pool,s.queue.erase (.evictor i addr)⟩
    else none
  | .giveUp i addr =>
    if .evictor i addr ∈ s.queue then some { s with queue := s.queue.erase (.evictor i addr) }
    else none

def Wants (p : State Addr ι) : Party Addr ι → Prop
  | .caller i => ∃ a, p.phase i = .locking a
  | .task k => ∃ a res, p.tasks k = some ⟨a,.locking res⟩
  | .evictor _ _ => False

section
variable {p : State Addr ι}

omit [DecidableEq Addr] [DecidableEq ι] in
theorem wants_caller {i : ι} : Wants p (.caller i) ↔ ∃ a, p.phase i = .locking a := Iff.rfl

omit [DecidableEq Addr] [DecidableEq ι] in
theorem wants_task {k : ℕ} : Wants p (.task k) ↔ ∃ a res, p.tasks k = some ⟨a,.locking res⟩ := Iff.rfl

end

structure FairInv (s : Fair Addr ι) : Prop where
  pool : Inv s.pool
  nodup : s.queue.Nodup
  queued : ∀ q, Wants s.pool q → q ∈ s.queue
  wants : ∀ q ∈ s.queue, Wants s.pool q ∨ ∃ i a, q = .evictor i a

variable {p p' : State Addr ι} {s t u : Fair Addr ι}

omit [DecidableEq Addr] [DecidableEq ι] in
theorem fairInv_init : FairInv (Fair.init : Fair Addr ι) := by
  refine ⟨⟨slotInv_init,senderInv_init⟩,List.nodup_nil,?_,fun q hq => (List.not_mem_nil hq).elim⟩
  rintro (i | k | ⟨i,a⟩) hq
  · obtain ⟨a,hq⟩ := hq
    cases hq
  · obtain ⟨a,res,hq⟩ := hq
    cases hq
  · exact hq.elim

/-- What a step of the pool changes about who wants the mutex: who asks did not want it
before, and who leaves does not want it any more. -/
theorem wants_change (h : Inv p) {l : Label Addr ι} (hst : step p l = some p') (q : Party Addr ι) :
    (l.asks = some q ∧ ¬ Wants p q ∧ Wants p' q) ∨ (l.asks ≠ some q ∧ l.leaves = some q ∧ ¬ Wants p' q) ∨
      (l.asks ≠ some q ∧ l.leaves ≠ some q ∧ (Wants p' q ↔ Wants p q)) := by
  cases q with
  | evictor i a =>
    refine .inr (.inr ⟨?_,?_,Iff.rfl⟩) <;> cases l <;> nofun
  | caller i =>
    have hwants {ph : CallerPhase Addr} (hp : p'.phase i = ph) (hph : ∀ a, ph ≠ .locking a) :
        ¬ Wants p' (.caller i) := by
      rintro ⟨a,ha⟩
      exact hph a (hp.symm.trans ha)
    by_cases hl : l.caller = some i
    · cases l with
      | enter j a =>
        cases hl
        obtain ⟨hi,rfl⟩ := step_enter hst
        refine .inl ⟨rfl,?_,a,Function.update_self ..⟩
        rintro ⟨b,hb⟩
        cases hi.symm.trans hb
      | lookup j =>
        cases hl
        obtain ⟨a,-,-,rfl⟩ := step_lookup hst
        refine .inr (.inl ⟨nofun,rfl,?_⟩)
        rcases getOrConnect_cases p i a with ⟨e,-,-,hg⟩ | ⟨ws,-,hg⟩ | ⟨-,-,hg⟩ <;> rw [hg] at hwants ⊢ <;>
          exact hwants (Function.update_self ..) nofun
      | cancel j =>
        cases hl
        obtain ⟨-,rfl⟩ := step_cancel hst
        exact .inr (.inl ⟨nofun,rfl,hwants (Function.update_self ..) nofun⟩)
      | receive j =>
        cases hl
        obtain ⟨a,hp,hr⟩ := step_receive hst
        have hbefore : ¬ Wants p (.caller i) := by
          rintro ⟨b,hb⟩
          cases hp.symm.trans hb
        have hafter : ¬ Wants p' (.caller i) := by
          rcases hr with ⟨r,rest,-,rfl⟩ | ⟨-,-,rfl⟩ <;> exact hwants (Function.update_self ..) nofun
        exact .inr (.inr ⟨nofun,nofun,iff_of_false hafter hbefore⟩)
      | _ => cases hl
    · have hsame : Wants p' (.caller i) ↔ Wants p (.caller i) := by
        rw [wants_caller,wants_caller,step_phase hst hl]
      refine .inr (.inr ⟨fun hq => hl ?_,fun hq => hl ?_,hsame⟩) <;> cases l <;> cases hq <;> rfl
  | task k =>
    have hidle (hl : l.connectTask = none) : l.asks ≠ some (.task k) ∧ l.leaves ≠ some (.task k) := by
      constructor <;> cases l <;> rintro ⟨⟩ <;> cases hl
    rcases (step_change hst).tasks with ⟨hl,ht,-⟩ | ⟨i,a,rfl,-,ht,-,-⟩ | ⟨j,a,o,o',hm,hj,ht,-⟩
    · refine .inr (.inr ⟨(hidle hl).1,(hidle hl).2,?_⟩)
      rw [wants_task,wants_task,ht]
    · refine .inr (.inr ⟨nofun,nofun,?_⟩)
      rw [wants_task,wants_task,ht]
      by_cases hk : k = p.nextTask
      · subst hk
        rw [Function.update_self,h.slots.fresh _ le_rfl]
        constructor
        · rintro ⟨b,res,⟨⟩⟩
        · rintro ⟨b,res,⟨⟩⟩
      · rw [Function.update_of_ne hk]
    · by_cases hk : k = j
      · subst hk
        have hbefore (ho : ∀ res, o ≠ .locking res) : ¬ Wants p (.task k) := by
          rintro ⟨b,res,hb⟩
          cases hj.symm.trans hb
          exact ho res rfl
        have hafter : p'.tasks k = some ⟨a,o'⟩ := by
          rw [ht]
          exact Function.update_self ..
        have hafter' (ho : ∀ res, o' ≠ .locking res) : ¬ Wants p' (.task k) := by
          rintro ⟨b,res,hb⟩
          cases hafter.symm.trans hb
          exact ho res rfl
        cases hm with
        | connected => exact .inr (.inr ⟨nofun,nofun,iff_of_false (hafter' nofun) (hbefore nofun)⟩)
        | connectFailed e => exact .inl ⟨rfl,hbefore nofun,a,_,hafter⟩
        | h3Ready => exact .inl ⟨rfl,hbefore nofun,a,_,hafter⟩
        | h3Failed e => exact .inl ⟨rfl,hbefore nofun,a,_,hafter⟩
        | complete res => exact .inr (.inl ⟨nofun,rfl,hafter' nofun⟩)
      · have hother : ∀ n, l.connectTask = some n → n = j := by
          intro n hn
          cases hm <;> exact (Option.some.inj hn).symm
        have hno (hn : l.connectTask = some k) : False := hk (hother k hn)
        refine .inr (.inr ⟨fun hq => hno ?_,fun hq => hno ?_,?_⟩)
        · cases l <;> cases hq <;> rfl
        · cases l <;> cases hq
          rfl
        · rw [wants_task,wants_task,ht,Function.update_of_ne hk]

def Fair.queueAfter (s : Fair Addr ι) (l : Label Addr ι) : List (Party Addr ι) :=
  l.leaves.elim s.queue s.queue.erase ++ l.asks.toList

theorem FairInv.act (h : FairInv s) {l : Label Addr ι} (hst : step s.pool l = some p') :
    FairInv ⟨p',s.queueAfter l⟩ := by
  have hsub {q : Party Addr ι} (hq : q ∈ l.leaves.elim s.queue s.queue.erase) : q ∈ s.queue := by
    cases hl : l.leaves with
    | none => rwa [hl] at hq
    | some q' =>
      rw [hl] at hq
      exact List.mem_of_mem_erase hq
  have hnodup : (l.leaves.elim s.queue s.queue.erase).Nodup := by
    cases l.leaves with
    | none => exact h.nodup
    | some q => exact h.nodup.erase q
  refine ⟨step_inv h.pool hst,?_,fun q hq => ?_,fun q hq => ?_⟩
  · refine List.nodup_append.mpr ⟨hnodup,?_,?_⟩
    · cases l.asks with
      | none => exact List.nodup_nil
      | some q => exact List.nodup_singleton q
    · rintro q hq r hr rfl
      have hask : l.asks = some q := Option.mem_toList.mp hr
      rcases wants_change h.pool hst q with ⟨-,hno,-⟩ | ⟨hne,-⟩ | ⟨hne,-⟩
      · rcases h.wants q (hsub hq) with hw | ⟨i,a,rfl⟩
        · exact hno hw
        · cases l <;> cases hask
      · exact hne hask
      · exact hne hask
  · refine List.mem_append.mpr ?_
    rcases wants_change h.pool hst q with ⟨hask,-⟩ | ⟨-,-,hno⟩ | ⟨-,hleave,hiff⟩
    · exact .inr (by rw [hask]; exact List.mem_singleton_self q)
    · exact (hno hq).elim
    · have hold := h.queued q (hiff.mp hq)
      refine .inl ?_
      cases hl : l.leaves with
      | none => exact hold
      | some q' => exact (List.mem_erase_of_ne fun he => hleave (hl.trans (congrArg some he.symm))).mpr hold
  · rcases List.mem_append.mp hq with hq | hq
    · rcases h.wants q (hsub hq) with hw | he
      · rcases wants_change h.pool hst q with ⟨-,-,hw'⟩ | ⟨-,hleave,-⟩ | ⟨-,-,hiff⟩
        · exact .inl hw'
        · rw [hleave] at hq
          exact (h.nodup.not_mem_erase hq).elim
        · exact .inl (hiff.mpr hw)
      · exact .inr he
    · have hask : l.asks = some q := Option.mem_toList.mp hq
      rcases wants_change h.pool hst q with ⟨-,-,hw⟩ | ⟨hne,-⟩ | ⟨hne,-⟩
      · exact .inl hw
      · exact (hne hask).elim
      · exact (hne hask).elim

theorem fair_act {l : Label Addr ι} (hl : l.evicts = false)
    (hlock : ∀ q, l.locks = some q → s.queue.head? = some q) (hst : step s.pool l = some p') :
    s.step (.act l) = some ⟨p',s.queueAfter l⟩ := by
  have hall : (l.locks.all fun q => s.queue.head? = some q) = true := by
    cases hq : l.locks with
    | none => rfl
    | some q => exact decide_eq_true (hlock q hq)
  cases l with
  | invalidate a => cases hl
  | _ =>
    simp only [Fair.step,hall,if_true,hst]
    rfl

theorem FairInv.erase_evictor (h : FairInv s) {i : ι} {a : Addr} (hI : Inv p')
    (hsame : ∀ q, Wants p' q ↔ Wants s.pool q) : FairInv ⟨p',s.queue.erase (.evictor i a)⟩ := by
  refine ⟨hI,h.nodup.erase _,fun q hq => ?_,fun q hq => ?_⟩
  · have hne : q ≠ .evictor i a := by
      rintro rfl
      exact hq
    exact (List.mem_erase_of_ne hne).mpr (h.queued q ((hsame q).mp hq))
  · exact (h.wants q (List.mem_of_mem_erase hq)).imp_left (hsame q).mpr

theorem wants_invalidate {a : Addr} (hst : step p (.invalidate a) = some p') (q : Party Addr ι) :
    Wants p' q ↔ Wants p q := by
  obtain ⟨-,rfl⟩ := step_invalidate hst
  cases q <;> exact Iff.rfl

theorem step_act {l : Label Addr ι} (hst : s.step (.act l) = some t) :
    ∃ p', step s.pool l = some p' ∧ t = ⟨p',s.queueAfter l⟩ := by
  cases l <;> simp only [Fair.step] at hst <;> first
    | cases hst
    | (split at hst
       · obtain ⟨p',hp,rfl⟩ := Option.map_eq_some_iff.mp hst
         exact ⟨p',hp,rfl⟩
       · cases hst)

/-- A step of the queued pool is one of the pool, or leaves the pool alone. -/
theorem step_pool {l : FairLabel Addr ι} (hst : s.step l = some t) :
    (∃ m, step s.pool m = some t.pool) ∨ t.pool = s.pool := by
  cases l with
  | act l =>
    obtain ⟨p',hp,rfl⟩ := step_act hst
    exact .inl ⟨l,hp⟩
  | ask i a =>
    simp only [Fair.step] at hst
    split at hst <;> cases hst
    exact .inr rfl
  | evict i a =>
    simp only [Fair.step] at hst
    split at hst
    · obtain ⟨p',hp,rfl⟩ := Option.map_eq_some_iff.mp hst
      exact .inl ⟨_,hp⟩
    · cases hst
  | giveUp i a =>
    simp only [Fair.step] at hst
    split at hst <;> cases hst
    exact .inr rfl

theorem step_fairInv (h : FairInv s) {l : FairLabel Addr ι} (hst : s.step l = some t) : FairInv t := by
  cases l with
  | act l =>
    obtain ⟨p',hp,rfl⟩ := step_act hst
    exact h.act hp
  | ask i a =>
    simp only [Fair.step] at hst
    split at hst
    · cases hst
    · rename_i hnew
      cases hst
      refine ⟨h.pool,?_,fun q hq => List.mem_append_left _ (h.queued q hq),fun q hq => ?_⟩
      · refine List.nodup_append.mpr ⟨h.nodup,List.nodup_singleton _,?_⟩
        rintro q hq r hr rfl
        cases List.mem_singleton.mp hr
        exact hnew hq
      · rcases List.mem_append.mp hq with hq | hq
        · exact h.wants q hq
        · exact .inr ⟨i,a,List.mem_singleton.mp hq⟩
  | evict i a =>
    simp only [Fair.step] at hst
    split at hst
    · obtain ⟨p',hp,rfl⟩ := Option.map_eq_some_iff.mp hst
      exact h.erase_evictor (step_inv h.pool hp) (wants_invalidate hp)
    · cases hst
  | giveUp i a =>
    simp only [Fair.step] at hst
    split at hst
    · cases hst
      exact h.erase_evictor h.pool fun _ => Iff.rfl
    · cases hst

/-- A run with the queue is one of the pool, so what holds of its runs holds here. -/
theorem fair_refines {ls : List (FairLabel Addr ι)} (h : exec Fair.step Fair.init ls = some s) :
    ∃ ms, exec step State.init ms = some s.pool := by
  have hsim (u : Fair Addr ι) (p : State Addr ι) (l : FairLabel Addr ι) (u' : Fair Addr ι) (hp : u.pool = p)
      (hst : u.step l = some u') : ∃ ms p', exec step p ms = some p' ∧ u'.pool = p' := by
    subst hp
    have hone {m : Label Addr ι} (hm : step u.pool m = some u'.pool) :
        ∃ ms p', exec step u.pool ms = some p' ∧ u'.pool = p' :=
      ⟨[m],_,exec_cons_eq_some.mpr ⟨_,hm,rfl⟩,rfl⟩
    rcases step_pool hst with ⟨m,hm⟩ | hsame
    · exact hone hm
    · exact ⟨[],u.pool,rfl,hsame⟩
  obtain ⟨ms,p,hms,hp⟩ := exec_simulation (C := fun _ _ => True) (fun u p l u' hp _ hst => hsim u p l u' hp hst)
    rfl meets_true h
  exact ⟨ms,hp ▸ hms⟩

/-! ### Everybody gets a turn -/

/-- What a party does when its turn comes: it runs its locked section, unless it is a
call that gives up. -/
def Party.turn (quits : Party Addr ι → Bool) : Party Addr ι → FairLabel Addr ι
  | .caller i => .act (if quits (.caller i) then .cancel i else .lookup i)
  | .task k => .act (.complete k)
  | .evictor i a => if quits (.evictor i a) then .giveUp i a else .evict i a

/-- The steps of the connect tasks, the caller's own ones, and the turns of those in the queue. -/
def Serves (net : Network) (quits : Party Addr ι → Bool) (i : ι) (queue : List (Party Addr ι))
    (l : FairLabel Addr ι) : Prop :=
  (∃ m, l = .act m ∧ (m.follows net ∨ m = .receive i)) ∨ ∃ q ∈ queue, l = q.turn quits

def CallerPhase.asking : CallerPhase Addr → Bool
  | .locking _ => true
  | .waiting _ => true
  | .returned _ => true
  | _ => false

variable (net : Network) {quits : Party Addr ι → Bool} {queue : List (Party Addr ι)} {i : ι}

theorem fair_act_free {l : Label Addr ι} (hl : l.evicts = false) (hasks : l.asks = none)
    (hleaves : l.leaves = none) (hst : step s.pool l = some p') : s.step (.act l) = some ⟨p',s.queue⟩ := by
  have hlocks : l.locks = none := by cases l <;> first | rfl | cases hleaves
  rw [fair_act hl (fun q hq => nomatch hlocks.symm.trans hq) hst,Fair.queueAfter,hasks,hleaves]
  exact congrArg (fun q => some (Fair.mk p' q)) (List.append_nil _)

theorem fair_empties (h : FairInv s) : CanReach Fair.step (Serves net quits i queue)
    (fun t => FairInv t ∧ t.queue = s.queue ∧ t.pool.batch = none ∧ t.pool.phase = s.pool.phase) s := by
  refine CanReach.lift (R := fun p u => u.pool = p ∧ FairInv u ∧ u.queue = s.queue) .act ?_ ?_ ?_ ⟨rfl,h,rfl⟩
    (empties h.pool)
  · rintro l (rfl | rfl)
    · exact .inl ⟨_,rfl,.inl trivial⟩
    · exact .inl ⟨_,rfl,.inl trivial⟩
  · rintro p u l p' ⟨rfl,hu,hq⟩ hl hst
    have hstep : u.step (.act l) = some ⟨p',u.queue⟩ := by
      rcases hl with rfl | rfl <;> exact fair_act_free rfl rfl rfl hst
    exact ⟨_,hstep,rfl,step_fairInv hu hstep,hq⟩
  · rintro p u ⟨rfl,hu,hq⟩ ⟨ht,hb,-⟩
    exact ⟨hu,hq,hb,ht.phase⟩

/-- Whoever is first in the queue of a free mutex has its turn; the others stay as they are. -/
theorem turns (h : FairInv s) (quits : Party Addr ι → Bool) {q : Party Addr ι} {rest : List (Party Addr ι)}
    (hq : s.queue = q :: rest) (hb : s.pool.batch = none) :
    ∃ t, s.step (q.turn quits) = some t ∧ FairInv t ∧ t.queue = rest ∧
      (∀ j, q ≠ .caller j → t.pool.phase j = s.pool.phase j) ∧
      ∀ j, q = .caller j → quits q = false → (t.pool.phase j).asking = true := by
  have herase : s.queue.erase q = rest := by
    rw [hq]
    exact List.erase_cons_head ..
  have hwants := h.wants q (by rw [hq]; exact List.mem_cons_self)
  have hact {l : Label Addr ι} {p' : State Addr ι} (hl : l.evicts = false)
      (hlock : ∀ r, l.locks = some r → r = q) (hleave : l.leaves = some q) (hask : l.asks = none)
      (hst : step s.pool l = some p') :
      s.step (.act l) = some ⟨p',rest⟩ := by
    rw [fair_act hl (fun r hr => by rw [hlock r hr,hq]; rfl) hst,Fair.queueAfter,hleave,hask]
    exact congrArg (fun q => some (Fair.mk p' q)) ((List.append_nil _).trans herase)
  cases q with
  | caller i =>
    obtain ⟨a,hi⟩ : ∃ a, s.pool.phase i = .locking a := by
      rcases hwants with hw | ⟨j,b,hj⟩
      · exact hw
      · cases hj
    have hframe {p' : State Addr ι} {l : Label Addr ι} (hl : l.caller = some i) (hst : step s.pool l = some p')
        (j : ι) (hj : (Party.caller i : Party Addr ι) ≠ .caller j) : p'.phase j = s.pool.phase j :=
      step_phase hst fun he => hj (congrArg Party.caller (Option.some.inj (hl.symm.trans he)))
    cases hquit : quits (.caller i) with
    | true =>
      have hst : step s.pool (.cancel i) = some (s.pool.setPhase i .cancelled) := by simp only [step,hi]
      have hstep := hact (l := .cancel i) rfl (by rintro r ⟨⟩) rfl rfl hst
      refine ⟨_,?_,step_fairInv h hstep,rfl,hframe rfl hst,by rintro j - ⟨⟩⟩
      rw [Party.turn,hquit]
      exact hstep
    | false =>
      have hst : step s.pool (.lookup i) = some (s.pool.getOrConnect i a) := by simp only [step,hi,hb]
      have hstep := hact (l := .lookup i) rfl (fun r hr => (Option.some.inj hr).symm) rfl rfl hst
      refine ⟨_,?_,step_fairInv h hstep,rfl,hframe rfl hst,?_⟩
      · rw [Party.turn,hquit]
        exact hstep
      · rintro j hj -
        cases hj
        change ((s.pool.getOrConnect i a).phase i).asking = true
        rcases getOrConnect_cases s.pool i a with ⟨e,-,-,hg⟩ | ⟨ws,-,hg⟩ | ⟨-,-,hg⟩ <;> rw [hg] <;>
          simp only [State.setPhase,Function.update_self] <;> rfl
  | task k =>
    obtain ⟨a,res,hk⟩ : ∃ a res, s.pool.tasks k = some ⟨a,.locking res⟩ := by
      rcases hwants with hw | ⟨j,b,hj⟩
      · exact hw
      · cases hj
    have hst : step s.pool (.complete k) = some (s.pool.completeTask k a res) := by simp only [step,hk,hb]
    have hstep := hact (l := .complete k) rfl (fun r hr => (Option.some.inj hr).symm) rfl rfl hst
    exact ⟨_,hstep,step_fairInv h hstep,rfl,fun _ _ => rfl,by rintro j ⟨⟩⟩
  | evictor i a =>
    cases hquit : quits (.evictor i a) with
    | true =>
      have hstep : s.step (.giveUp i a) = some { s with queue := rest } := by
        have hmem : Party.evictor i a ∈ s.queue := by
          rw [hq]
          exact List.mem_cons_self
        simp only [Fair.step,hmem,if_true,herase]
      refine ⟨_,?_,step_fairInv h hstep,rfl,fun _ _ => rfl,by rintro j ⟨⟩⟩
      rw [Party.turn,hquit]
      exact hstep
    | false =>
      let pool := { s.pool with map := Function.update s.pool.map a (evict s.pool.isClosed (s.pool.map a)) }
      have hst : step s.pool (.invalidate a) = some pool := by simp only [step,hb,pool]
      have hstep : s.step (.evict i a) = some ⟨pool,rest⟩ := by
        have hhead : s.queue.head? = some (.evictor i a) := by
          rw [hq]
          rfl
        simp only [Fair.step,hhead,if_true,hst,Option.map_some,herase]
      refine ⟨_,?_,step_fairInv h hstep,rfl,fun _ _ => rfl,by rintro j ⟨⟩⟩
      rw [Party.turn,hquit]
      exact hstep

/-- The queue comes to its end, and who was not in it has not moved. -/
theorem clears (h : FairInv s) (hsub : s.queue ⊆ queue) : CanReach Fair.step (Serves net quits i queue)
    (fun t => FairInv t ∧ t.queue = [] ∧ (∀ j, .caller j ∉ s.queue → t.pool.phase j = s.pool.phase j) ∧
      ∀ j, quits (.caller j) = false → (s.pool.phase j).asking = true → (t.pool.phase j).asking = true) s := by
  generalize hn : s.queue = waiting at *
  induction waiting generalizing s with
  | nil => exact .now ⟨h,hn,fun _ _ => rfl,fun _ _ hj => hj⟩
  | cons q rest ih =>
    refine (fair_empties net h).trans ?_
    rintro t ⟨ht,htq,htb,htp⟩
    obtain ⟨u,hst,hu,huq,hframe,hasks⟩ := turns ht quits (htq.trans hn) htb
    have hmem : q ∈ queue := hsub List.mem_cons_self
    refine .next (.inr ⟨q,hmem,rfl⟩) hst ((ih hu huq fun r hr => hsub (List.mem_cons_of_mem q hr)).mono ?_)
    rintro v ⟨hv,hvq,hvp,hva⟩
    refine ⟨hv,hvq,fun j hj => ?_,fun j hj hp => hva j hj ?_⟩
    · obtain ⟨hne,hrest⟩ := not_or.mp (List.mem_cons.not.mp hj)
      rw [hvp j hrest,hframe j (Ne.symm hne),htp]
    · by_cases hqj : q = .caller j
      · exact hasks j hqj (hqj ▸ hj)
      · rw [hframe j hqj,htp]
        exact hp

/-- With nobody else waiting for the mutex a task can bring its waiters their answer. -/
theorem fair_answers (h : FairInv s) (hq : s.queue = []) {a : Addr} {k : ℕ}
    (hj : s.pool.joined i = some (a,k)) : CanReach Fair.step (Serves net quits i queue)
      (fun t => FairInv t ∧ t.pool.phase = s.pool.phase ∧ ∃ res, t.pool.sent i = [res]) s := by
  refine CanReach.lift (R := fun p u => u.pool = p ∧ FairInv u ∧ ∀ q ∈ u.queue, q = .task k) .act ?_ ?_ ?_
    ⟨rfl,h,fun q hmem => by rw [hq] at hmem; cases hmem⟩ (task_answers net h.pool hj)
  · exact fun l hl => .inl ⟨l,rfl,.inl hl.1⟩
  · rintro p u l p' ⟨rfl,hu,honly⟩ ⟨hfollows,hown⟩ hst
    have hno : l.evicts = false := by
      cases l with
      | invalidate b => exact hfollows.elim
      | _ => rfl
    have hlock (q : Party Addr ι) (hlq : l.locks = some q) : u.queue.head? = some q := by
      have hqk : q = .task k := by
        cases l with
        | complete j =>
          cases hlq
          rw [hown j rfl]
        | lookup j => exact hfollows.elim
        | _ => cases hlq
      subst hqk
      have hmem : Party.task k ∈ u.queue := by
        cases l with
        | complete j =>
          obtain ⟨b,res,hk,-,-⟩ := step_complete hst
          rw [hown j rfl] at hk
          exact hu.queued _ ⟨b,res,hk⟩
        | _ => cases hlq
      obtain ⟨q',rest,hcons⟩ := List.exists_cons_of_ne_nil (List.ne_nil_of_mem hmem)
      rw [hcons,← honly q' (by rw [hcons]; exact List.mem_cons_self)]
      rfl
    have hstep := fair_act hno hlock hst
    refine ⟨_,hstep,rfl,step_fairInv hu hstep,fun q hmem => ?_⟩
    rcases List.mem_append.mp hmem with hmem | hmem
    · refine honly q ?_
      cases hl : l.leaves with
      | none => rwa [hl] at hmem
      | some q' =>
        rw [hl] at hmem
        exact List.mem_of_mem_erase hmem
    · have hask : l.asks = some q := Option.mem_toList.mp hmem
      cases l <;> cases hask <;> first
        | exact hfollows.elim
        | exact congrArg Party.task (hown _ rfl)
  · rintro p u ⟨rfl,hu,-⟩ ⟨ht,hres⟩
    exact ⟨hu,ht.phase,hres⟩

/-- No deadlock in the pool: from every reachable state every caller that waits for the
mutex or for an answer can get its result, by the tasks' own steps, by its own and by the
turns of those that are waiting for the mutex already, whether they take them or give up,
and whatever the network answers. Nobody else has to move. -/
theorem get_or_connect_returns {ls : List (FairLabel Addr ι)} (h : exec Fair.step Fair.init ls = some s)
    (quits : Party Addr ι → Bool) {i : ι} (hi : quits (.caller i) = false) {a : Addr}
    (hp : s.pool.phase i = .locking a ∨ s.pool.phase i = .waiting a) :
    CanReach Fair.step (Serves net quits i s.queue) (fun t => (∃ reply, t.pool.phase i = .returned reply) ∧
      ∀ j ≠ i, .caller j ∉ s.queue → t.pool.phase j = s.pool.phase j) s := by
  have hinv : FairInv s := exec_invariant (fun _ _ _ hs hst => step_fairInv hs hst) fairInv_init h
  refine (clears net hinv (List.Subset.refl _)).trans ?_
  rintro t ⟨ht,htq,hframe,hasks⟩
  have hasking : (t.pool.phase i).asking = true := by
    refine hasks i hi ?_
    rcases hp with hp | hp <;> rw [hp] <;> rfl
  cases hti : t.pool.phase i with
  | idle => rw [hti] at hasking; cases hasking
  | cancelled => rw [hti] at hasking; cases hasking
  | locking b =>
    have hmem := ht.queued (.caller i) ⟨b,hti⟩
    rw [htq] at hmem
    cases hmem
  | returned reply => exact .now ⟨⟨reply,hti⟩,fun j _ hj => hframe j hj⟩
  | waiting b =>
    obtain ⟨k,hj⟩ := ht.pool.senders.blocked i b hti
    refine (fair_answers net ht htq hj).trans ?_
    rintro u ⟨hu,hup,res,hres⟩
    have hst : step u.pool (.receive i) = some (u.pool.setPhase i (.returned (.answered res))) := by
      simp only [step,hup,hti,hres]
    refine .next (.inl ⟨_,rfl,.inr rfl⟩) (fair_act_free rfl rfl rfl hst)
      (.now ⟨⟨_,Function.update_self ..⟩,fun j hne hj => ?_⟩)
    calc (u.pool.setPhase i (.returned (.answered res))).phase j = u.pool.phase j := Function.update_of_ne hne ..
      _ = s.pool.phase j := (congrFun hup j).trans (hframe j hj)

/-- Caller 0 dials and hangs up; callers 1 and 2 want the mutex, and 2 waits behind 1. -/
def queuedCallers : List (FairLabel ℕ ℕ) :=
  [.act (.enter 0 7),.act (.lookup 0),.act (.enter 1 7),.act (.enter 2 7),.act (.cancel 0)]

/-- Caller 1 gives up, and the dial fails. -/
theorem get_or_connect_returns_queuedCallers :
    ∃ s, exec Fair.step (Fair.init : Fair ℕ ℕ) queuedCallers = some s ∧
      CanReach Fair.step
        (Serves ⟨fun _ => .error (.transport (.connection "timed out")),fun _ => .ok ()⟩ (fun q => q = .caller 1) 2 s.queue)
        (fun t => (∃ reply, t.pool.phase 2 = .returned reply) ∧
          ∀ j ≠ 2, .caller j ∉ s.queue → t.pool.phase j = s.pool.phase j) s := by
  have h : exec Fair.step (Fair.init : Fair ℕ ℕ) queuedCallers = some _ := rfl
  exact ⟨_,h,get_or_connect_returns _ h (fun q => q = .caller 1) (by decide) (a := 7) (.inl rfl)⟩

end GrpcQuic.Pool
