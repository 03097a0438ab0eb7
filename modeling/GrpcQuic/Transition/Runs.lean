import Mathlib.Data.List.Basic

/-! # Runs of labelled transition functions

All nondeterminism sits in the labels, so a schedule is a list of labels and a
run is a computation. A label that is not enabled stops the run. The rules below
turn one-step facts into facts about every state of every run.
-/
namespace GrpcQuic.Transition
variable {σ τ α β : Type*}

def exec (step : σ → α → Option σ) : σ → List α → Option σ
  | s, [] => some s
  | s, a :: as => (step s a).bind fun t => exec step t as

section Execution
variable {step : σ → α → Option σ}

@[simp] theorem exec_nil (s : σ) : exec step s [] = some s := rfl

@[simp] theorem exec_cons (s : σ) (a : α) (as : List α) :
    exec step s (a :: as) = (step s a).bind fun t => exec step t as := rfl

theorem exec_cons_eq_some {s t : σ} {a : α} {as : List α} :
    exec step s (a :: as) = some t ↔ ∃ u, step s a = some u ∧ exec step u as = some t := by
  simp only [exec_cons,Option.bind_eq_some_iff]

theorem exec_append (s : σ) (as bs : List α) :
    exec step s (as ++ bs) = (exec step s as).bind fun t => exec step t bs := by
  induction as generalizing s with
  | nil => rfl
  | cons a as ih =>
    simp only [List.cons_append,exec_cons,Option.bind_assoc]
    congr 1
    funext t
    exact ih t

/-- The invariant rule for schedules whose labels all lie in a given class. -/
theorem exec_invariant_of_labels {I : σ → Prop} {A : α → Prop}
    (hstep : ∀ s a t, I s → A a → step s a = some t → I t)
    {s t : σ} {as : List α} (hs : I s) (hA : ∀ a ∈ as, A a) (h : exec step s as = some t) : I t := by
  induction as generalizing s with
  | nil => exact (Option.some.inj h) ▸ hs
  | cons a as ih =>
    obtain ⟨u,hu,hrest⟩ := exec_cons_eq_some.mp h
    exact ih (hstep s a u hs (hA a List.mem_cons_self) hu)
      (fun b hb => hA b (List.mem_cons_of_mem a hb)) hrest

/-- The invariant rule: what every step preserves, every run preserves. -/
theorem exec_invariant {I : σ → Prop} (hstep : ∀ s a t, I s → step s a = some t → I t)
    {s t : σ} {as : List α} (hs : I s) (h : exec step s as = some t) : I t :=
  exec_invariant_of_labels (A := fun _ => True) (fun s a t hI _ => hstep s a t hI) hs
    (fun _ _ => trivial) h

/-- The invariant rule with the labels taken so far: what each step adds to the past,
a run adds up. -/
theorem exec_history {I : List α → σ → Prop}
    (hstep : ∀ past s a t, I past s → step s a = some t → I (past ++ [a]) t)
    {past : List α} {s t : σ} {as : List α} (hs : I past s) (h : exec step s as = some t) : I (past ++ as) t := by
  induction as generalizing past s with
  | nil => rwa [List.append_nil,← Option.some.inj h]
  | cons a as ih =>
    obtain ⟨u,hu,hrest⟩ := exec_cons_eq_some.mp h
    have hI := ih (hstep past s a u hs hu) hrest
    rwa [List.append_assoc] at hI

end Execution

section Histories
variable (step : σ → α → Option σ)

/-- `P` holds in every state of the run, the last one included. -/
def Always (P : σ → Prop) : σ → List α → Prop
  | s, [] => P s
  | s, a :: as => P s ∧ ∀ t, step s a = some t → Always P t as

/-- Every step of the run, seen with the state it starts from, meets `C`. -/
def Meets (C : σ → α → Prop) : σ → List α → Prop
  | _, [] => True
  | s, a :: as => C s a ∧ ∀ t, step s a = some t → Meets C t as

end Histories

section Rules
variable {step : σ → α → Option σ} {P : σ → Prop} {C H : σ → α → Prop}

theorem Always.head {s : σ} {as : List α} (h : Always step P s as) : P s := by
  cases as with
  | nil => exact h
  | cons a as => exact h.1

theorem Always.last {s t : σ} {as : List α} (h : Always step P s as)
    (he : exec step s as = some t) : P t := by
  induction as generalizing s with
  | nil => exact (Option.some.inj he) ▸ h
  | cons a as ih =>
    obtain ⟨u,hu,hrest⟩ := exec_cons_eq_some.mp he
    exact ih (h.2 u hu) hrest

/-- What holds throughout a run holds after each of its steps. -/
theorem Always.meets {s : σ} {as : List α} (h : Always step P s as) :
    Meets step (fun u a => ∀ t, step u a = some t → P t) s as := by
  induction as generalizing s with
  | nil => trivial
  | cons a as ih => exact ⟨fun t ht => (h.2 t ht).head,fun t ht => ih (h.2 t ht)⟩

/-- Along a run that keeps `I`, a property passes to its consequences under `I`. -/
theorem Always.imp {Q I : σ → Prop} (hinv : ∀ s a t, I s → step s a = some t → I t)
    (hPQ : ∀ s, I s → P s → Q s) {s : σ} {as : List α} (hI : I s) (h : Always step P s as) :
    Always step Q s as := by
  induction as generalizing s with
  | nil => exact hPQ s hI h
  | cons a as ih => exact ⟨hPQ s hI h.1,fun t ht => ih (hinv s a t hI ht) (h.2 t ht)⟩

/-- A condition that an invariant gives for the labels of a class is met by their runs. -/
theorem meets_of_labels {I : σ → Prop} {A : α → Prop}
    (hinv : ∀ s a t, I s → A a → step s a = some t → I t) (hIC : ∀ s a, I s → A a → C s a) {s : σ}
    {as : List α} (hI : I s) (hA : ∀ a ∈ as, A a) : Meets step C s as := by
  induction as generalizing s with
  | nil => trivial
  | cons a as ih =>
    have ha := hA a List.mem_cons_self
    refine ⟨hIC s a hI ha,fun t ht => ?_⟩
    apply ih (hinv s a t hI ha ht)
    exact fun b hb => hA b (List.mem_cons_of_mem a hb)

/-- Conditions that agree under an invariant are met by the same runs. -/
theorem Meets.mono {D : σ → α → Prop} {s : σ} {as : List α} (h : Meets step C s as) (hCD : ∀ s a, C s a → D s a) :
    Meets step D s as := by
  induction as generalizing s with
  | nil => trivial
  | cons a as ih => exact ⟨hCD s a h.1,fun t ht => ih (h.2 t ht)⟩

/-- What the steps of a run tell of its labels. -/
theorem Meets.labels {A : α → Prop} {s t : σ} {as : List α} (h : Meets step C s as) (hs : exec step s as = some t)
    (hCA : ∀ s a, C s a → A a) : ∀ a ∈ as, A a := by
  induction as generalizing s with
  | nil => exact fun a ha => (List.not_mem_nil ha).elim
  | cons b bs ih =>
    obtain ⟨u,hu,hrest⟩ := exec_cons_eq_some.mp hs
    intro a ha
    rcases List.mem_cons.mp ha with rfl | ha
    · exact hCA s a h.1
    · exact ih (h.2 u hu) hrest a ha

theorem Meets.and_labels {A : α → Prop} {s : σ} {as : List α} (h : Meets step C s as) (hA : ∀ a ∈ as, A a) :
    Meets step (fun s a => C s a ∧ A a) s as := by
  induction as generalizing s with
  | nil => trivial
  | cons a as ih =>
    exact ⟨⟨h.1,hA a List.mem_cons_self⟩,fun t ht => ih (h.2 t ht) fun b hb => hA b (List.mem_cons_of_mem a hb)⟩

theorem meets_congr {I : σ → Prop} (hinv : ∀ s a t, I s → step s a = some t → I t)
    (hiff : ∀ s a, I s → (C s a ↔ H s a)) {s : σ} {as : List α} (hI : I s) :
    Meets step C s as ↔ Meets step H s as := by
  induction as generalizing s with
  | nil => exact Iff.rfl
  | cons a as ih =>
    refine and_congr (hiff s a hI) (forall_congr' fun t => forall_congr' fun ht => ?_)
    exact ih (hinv s a t hI ht)

/-- What follows from an invariant holds throughout every run. -/
theorem always_of_invariant {I : σ → Prop} (hinv : ∀ s a t, I s → step s a = some t → I t)
    (hIP : ∀ s, I s → P s) {s : σ} {as : List α} (hI : I s) : Always step P s as := by
  induction as generalizing s with
  | nil => exact hIP s hI
  | cons a as ih => exact ⟨hIP s hI,fun t ht => ih (hinv s a t hI ht)⟩

/-- A property that holds throughout a run carries along another one that needs it
only at the state a step leads to. -/
theorem Always.carry {Q I : σ → Prop} (hinv : ∀ s a t, I s → step s a = some t → I t)
    (hstep : ∀ s a t, I s → Q s → step s a = some t → P t → Q t) {s : σ} {as : List α} (hI : I s)
    (hQ : Q s) (h : Always step P s as) : Always step Q s as := by
  induction as generalizing s with
  | nil => exact hQ
  | cons a as ih =>
    refine ⟨hQ,fun t ht => ?_⟩
    apply ih (hinv s a t hI ht)
    · exact hstep s a t hI hQ ht (h.2 t ht).head
    · exact h.2 t ht

/-- A property whose failures are never repaired holds throughout a run as soon
as it holds at the end. -/
theorem always_of_last {I : σ → Prop} (hinv : ∀ s a t, I s → step s a = some t → I t)
    (hback : ∀ s a t, I s → step s a = some t → P t → P s) {s t : σ} {as : List α} (hI : I s)
    (he : exec step s as = some t) (ht : P t) : Always step P s as := by
  induction as generalizing s with
  | nil => exact (Option.some.inj he) ▸ ht
  | cons a as ih =>
    obtain ⟨u,hu,hrest⟩ := exec_cons_eq_some.mp he
    have hrun := ih (hinv s a u hI hu) hrest
    refine ⟨hback s a u hI hu hrun.head,fun v hv => ?_⟩
    cases hu.symm.trans hv
    exact hrun

/-- The invariant rule for schedules restricted step by step. -/
theorem exec_invariant_of_meets {I : σ → Prop}
    (hstep : ∀ s a t, I s → C s a → step s a = some t → I t)
    {s t : σ} {as : List α} (hs : I s) (hC : Meets step C s as) (h : exec step s as = some t) :
    I t := by
  induction as generalizing s with
  | nil => exact (Option.some.inj h) ▸ hs
  | cons a as ih =>
    obtain ⟨u,hu,hrest⟩ := exec_cons_eq_some.mp h
    exact ih (hstep s a u hs hC.1 hu) (hC.2 u hu) hrest

/-- A good property that one step keeps exactly when the step meets `C` holds
throughout a run exactly when all the steps of the run meet `C`. -/
theorem always_iff_meets {I : σ → Prop}
    (hinv : ∀ s a t, I s → H s a → step s a = some t → I t)
    (hstep : ∀ s a t, I s → P s → H s a → step s a = some t → (P t ↔ C s a))
    {s t : σ} {as : List α} (hI : I s) (hP : P s) (hH : Meets step H s as)
    (he : exec step s as = some t) : Always step P s as ↔ Meets step C s as := by
  induction as generalizing s with
  | nil => exact ⟨fun _ => trivial,fun _ => hP⟩
  | cons a as ih =>
    obtain ⟨u,hu,hrest⟩ := exec_cons_eq_some.mp he
    have hiff := hstep s a u hI hP hH.1 hu
    constructor
    · intro h
      have hPu := (h.2 u hu).head
      refine ⟨hiff.mp hPu,fun v hv => ?_⟩
      cases hu.symm.trans hv
      exact (ih (hinv s a u hI hH.1 hu) hPu (hH.2 u hu) hrest).mp (h.2 u hu)
    · intro h
      have hPu := hiff.mpr h.1
      refine ⟨hP,fun v hv => ?_⟩
      cases hu.symm.trans hv
      exact (ih (hinv s a u hI hH.1 hu) hPu (hH.2 u hu) hrest).mpr (h.2 u hu)

end Rules

/-- Forward simulation: a step of the lower system that meets `C` is matched by a
(possibly empty) schedule of the upper one, so a run is matched by the joined
schedules. -/
theorem exec_simulation {stepA : σ → α → Option σ} {stepB : τ → β → Option τ} {R : σ → τ → Prop}
    {C : σ → α → Prop}
    (hsim : ∀ s u a s', R s u → C s a → stepA s a = some s' →
      ∃ bs u', exec stepB u bs = some u' ∧ R s' u')
    {s t : σ} {u : τ} {as : List α} (hR : R s u) (hC : Meets stepA C s as)
    (h : exec stepA s as = some t) : ∃ bs u', exec stepB u bs = some u' ∧ R t u' := by
  induction as generalizing s u with
  | nil => exact ⟨[],u,rfl,(Option.some.inj h) ▸ hR⟩
  | cons a as ih =>
    obtain ⟨v,hv,hrest⟩ := exec_cons_eq_some.mp h
    obtain ⟨bs,w,hbs,hw⟩ := hsim s u a v hR hC.1 hv
    obtain ⟨cs,x,hcs,hx⟩ := ih hw (hC.2 v hv) hrest
    exact ⟨bs ++ cs,x,by rw [exec_append,hbs]; exact hcs,hx⟩

/-- Simulation in lockstep: what matches label by label over a class of labels
matches over every schedule of the class. -/
theorem exec_lockstep {stepA : σ → α → Option σ} {stepB : τ → α → Option τ} {R : σ → τ → Prop}
    {A : α → Prop}
    (hsim : ∀ s u a s', R s u → A a → stepA s a = some s' → ∃ u', stepB u a = some u' ∧ R s' u')
    {s t : σ} {u : τ} {as : List α} (hR : R s u) (hA : ∀ a ∈ as, A a)
    (h : exec stepA s as = some t) : ∃ u', exec stepB u as = some u' ∧ R t u' := by
  induction as generalizing s u with
  | nil => exact ⟨u,rfl,(Option.some.inj h) ▸ hR⟩
  | cons a as ih =>
    obtain ⟨v,hv,hrest⟩ := exec_cons_eq_some.mp h
    obtain ⟨w,hw,hvw⟩ := hsim s u a v hR (hA a List.mem_cons_self) hv
    obtain ⟨u',hu',hlast⟩ := ih hvw (fun b hb => hA b (List.mem_cons_of_mem a hb)) hrest
    exact ⟨u',exec_cons_eq_some.mpr ⟨w,hw,hu'⟩,hlast⟩

theorem meets_true {step : σ → α → Option σ} {s : σ} {as : List α} :
    Meets step (fun _ _ => True) s as := by
  induction as generalizing s with
  | nil => trivial
  | cons a as ih => exact ⟨trivial,fun _ _ => ih⟩

end GrpcQuic.Transition
