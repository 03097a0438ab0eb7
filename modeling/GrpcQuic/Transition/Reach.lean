import GrpcQuic.Transition.Runs

/-! # What a system can still do

A state can reach a property with some of the parties silent: there is a schedule
into it that uses none of their labels. A schedule of one component is a schedule
of the system, and what the others keep they keep under every such schedule.
-/
namespace GrpcQuic.Transition
variable {σ τ α β : Type*}

/-- A schedule of labels in `A` leads from `s` into `P`. -/
def CanReach (step : σ → α → Option σ) (A : α → Prop) (P : σ → Prop) (s : σ) : Prop :=
  ∃ as t, (∀ a ∈ as, A a) ∧ exec step s as = some t ∧ P t

section Rules
variable {step : σ → α → Option σ} {A : α → Prop} {P Q : σ → Prop} {s t : σ}

theorem CanReach.now (h : P s) : CanReach step A P s :=
  ⟨[],s,fun _ ha => (List.not_mem_nil ha).elim,rfl,h⟩

theorem CanReach.next {a : α} (ha : A a) (hst : step s a = some t) (h : CanReach step A P t) :
    CanReach step A P s := by
  obtain ⟨as,u,has,hu,hP⟩ := h
  refine ⟨a :: as,u,fun b hb => ?_,exec_cons_eq_some.mpr ⟨t,hst,hu⟩,hP⟩
  rcases List.mem_cons.mp hb with rfl | hb
  · exact ha
  · exact has b hb

theorem CanReach.mono (h : CanReach step A P s) (hPQ : ∀ s, P s → Q s) : CanReach step A Q s := by
  obtain ⟨as,t,has,ht,hP⟩ := h
  exact ⟨as,t,has,ht,hPQ t hP⟩

theorem CanReach.widen {B : α → Prop} (h : CanReach step A P s) (hAB : ∀ a, A a → B a) : CanReach step B P s := by
  obtain ⟨as,t,has,ht,hP⟩ := h
  exact ⟨as,t,fun a ha => hAB a (has a ha),ht,hP⟩

theorem CanReach.trans (h : CanReach step A P s) (hPQ : ∀ t, P t → CanReach step A Q t) :
    CanReach step A Q s := by
  obtain ⟨as,t,has,ht,hP⟩ := h
  obtain ⟨bs,u,hbs,hu,hQ⟩ := hPQ t hP
  refine ⟨as ++ bs,u,fun a ha => ?_,?_,hQ⟩
  · rcases List.mem_append.mp ha with ha | ha
    · exact has a ha
    · exact hbs a ha
  · rw [exec_append,ht]
    exact hu

/-- A position that can always be raised by one can be raised up to the goal. -/
theorem CanReach.climb (I : σ → Prop) (pos : σ → ℕ) {goal : ℕ}
    (hstep : ∀ s, I s → pos s < goal → CanReach step A (fun t => I t ∧ pos t = pos s + 1) s)
    (hI : I s) (hs : pos s ≤ goal) : CanReach step A (fun t => I t ∧ pos t = goal) s := by
  obtain ⟨n,hn⟩ := Nat.exists_eq_add_of_le hs
  induction n generalizing s with
  | zero => exact .now ⟨hI,hn.symm⟩
  | succ n ih =>
    refine (hstep s hI (by omega)).trans ?_
    rintro t ⟨ht,hpos⟩
    exact ih ht (by omega) (by omega)

/-- What the labels in `A` keep, and what excludes `P`, keeps `P` out of reach. -/
theorem not_canReach {I : σ → Prop} (hstep : ∀ s a t, I s → A a → step s a = some t → I t)
    (hI : I s) (hP : ∀ t, I t → ¬ P t) : ¬ CanReach step A P s := by
  rintro ⟨as,t,has,ht,hPt⟩
  exact hP t (exec_invariant_of_labels hstep hI has ht) hPt

end Rules

/-- What a component can reach on its own, the system around it can reach. -/
theorem CanReach.lift {stepA : σ → α → Option σ} {stepB : τ → β → Option τ} {A : α → Prop} {B : β → Prop}
    {P : σ → Prop} {Q : τ → Prop} {R : σ → τ → Prop} (f : α → β) (hf : ∀ a, A a → B (f a))
    (hsim : ∀ s u a t, R s u → A a → stepA s a = some t → ∃ v, stepB u (f a) = some v ∧ R t v)
    (hPQ : ∀ s u, R s u → P s → Q u) {s : σ} {u : τ} (hR : R s u) (h : CanReach stepA A P s) :
    CanReach stepB B Q u := by
  obtain ⟨as,t,has,ht,hP⟩ := h
  induction as generalizing s u with
  | nil =>
    cases ht
    exact .now (hPQ _ _ hR hP)
  | cons a as ih =>
    obtain ⟨s',hs',hrest⟩ := exec_cons_eq_some.mp ht
    have ha := has a List.mem_cons_self
    obtain ⟨v,hv,hR'⟩ := hsim s u a s' hR ha hs'
    exact .next (hf a ha) hv
      (ih hR' (fun b hb => has b (List.mem_cons_of_mem a hb)) hrest)

/-- A schedule whose steps all meet `C` leads from `s` into `P`. -/
def CanMeet (step : σ → α → Option σ) (C : σ → α → Prop) (P : σ → Prop) (s : σ) : Prop :=
  ∃ as t, Meets step C s as ∧ exec step s as = some t ∧ P t

section Rules
variable {step : σ → α → Option σ} {C : σ → α → Prop} {P Q : σ → Prop} {s t : σ}

theorem CanMeet.now (h : P s) : CanMeet step C P s := ⟨[],s,trivial,rfl,h⟩

theorem CanMeet.next (a : α) (ha : C s a) (hst : step s a = some t) (h : CanMeet step C P t) :
    CanMeet step C P s := by
  obtain ⟨as,u,has,hu,hP⟩ := h
  refine ⟨a :: as,u,⟨ha,fun t' ht' => ?_⟩,exec_cons_eq_some.mpr ⟨t,hst,hu⟩,hP⟩
  cases hst.symm.trans ht'
  exact has

theorem CanMeet.trans (h : CanMeet step C P s) (hPQ : ∀ t, P t → CanMeet step C Q t) :
    CanMeet step C Q s := by
  obtain ⟨as,t,has,ht,hP⟩ := h
  induction as generalizing s with
  | nil =>
    cases ht
    exact hPQ _ hP
  | cons a as ih =>
    obtain ⟨u,hu,hrest⟩ := exec_cons_eq_some.mp ht
    exact .next a has.1 hu (ih (has.2 u hu) hrest)

theorem CanMeet.widen {D : σ → α → Prop} (h : CanMeet step C P s) (hCD : ∀ s a, C s a → D s a) :
    CanMeet step D P s := by
  obtain ⟨as,t,has,ht,hP⟩ := h
  refine ⟨as,t,?_,ht,hP⟩
  clear ht
  induction as generalizing s with
  | nil => trivial
  | cons a as ih => exact ⟨hCD s a has.1,fun u hu => ih (has.2 u hu)⟩

theorem CanMeet.mono (h : CanMeet step C P s) (hPQ : ∀ s, P s → Q s) : CanMeet step C Q s := by
  obtain ⟨as,t,has,ht,hP⟩ := h
  exact ⟨as,t,has,ht,hPQ t hP⟩

/-- On the way what the steps that meet `C` keep is kept. -/
theorem CanMeet.along {I : σ → Prop} (hstep : ∀ s a t, I s → C s a → step s a = some t → I t) (hI : I s)
    (h : CanMeet step C P s) : CanMeet step C (fun t => I t ∧ P t) s := by
  obtain ⟨as,t,has,ht,hP⟩ := h
  exact ⟨as,t,has,ht,exec_invariant_of_meets hstep hI has ht,hP⟩

/-- On the way an invariant is kept. -/
theorem CanMeet.keep {I : σ → Prop} (hstep : ∀ s a t, I s → step s a = some t → I t) (hI : I s)
    (h : CanMeet step C P s) : CanMeet step C (fun t => I t ∧ P t) s :=
  h.along (fun s a t hs _ hst => hstep s a t hs hst) hI

end Rules

/-- A schedule of a component is one of the system around it, as long as the two go
together. -/
theorem CanMeet.lift {stepA : σ → α → Option σ} {stepB : τ → β → Option τ} {C : σ → α → Prop}
    {D : τ → β → Prop} {P : σ → Prop} {Q : τ → Prop} {R : σ → τ → Prop} (f : α → β)
    (hsim : ∀ s u a t, R s u → C s a → stepA s a = some t →
      D u (f a) ∧ ∃ v, stepB u (f a) = some v ∧ R t v)
    (hPQ : ∀ s u, R s u → P s → Q u) {s : σ} {u : τ} (hR : R s u) (h : CanMeet stepA C P s) :
    CanMeet stepB D Q u := by
  obtain ⟨as,t,has,ht,hP⟩ := h
  induction as generalizing s u with
  | nil =>
    cases ht
    exact .now (hPQ _ _ hR hP)
  | cons a as ih =>
    obtain ⟨s',hs',hrest⟩ := exec_cons_eq_some.mp ht
    obtain ⟨hD,v,hv,hR'⟩ := hsim s u a s' hR has.1 hs'
    exact .next (f a) hD hv (ih hR' (has.2 s' hs') hrest)

/-- Where an invariant makes the steps that meet `C` meet `D`, a schedule that meets `C`
meets `D`. -/
theorem CanMeet.imp {step : σ → α → Option σ} {C D : σ → α → Prop} {I P : σ → Prop} {s : σ}
    (hstep : ∀ s a t, I s → C s a → step s a = some t → D s a ∧ I t) (hI : I s) (h : CanMeet step C P s) :
    CanMeet step D P s := by
  refine CanMeet.lift (R := fun u v => u = v ∧ I v) (fun a => a) ?_ ?_ ⟨rfl,hI⟩ h
  · rintro u v a t ⟨rfl,hu⟩ ha hst
    obtain ⟨hD,ht⟩ := hstep u a t hu ha hst
    exact ⟨hD,t,hst,rfl,ht⟩
  · rintro u v ⟨rfl,-⟩ hP
    exact hP

end GrpcQuic.Transition
