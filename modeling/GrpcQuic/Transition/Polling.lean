import GrpcQuic.Transition.Runs

/-! # Values that are polled

A value changes by events from outside and by being polled, and every poll leaves
a record. A stream of results is fused when nothing but a silent result follows
the first one that ends it; which later polls stay silent decides that.
-/
namespace GrpcQuic.Transition
variable {α β ρ ε π : Type*}

structure Polled (β ρ : Type*) where
  value : β
  log : List ρ

inductive PollLabel (ε π : Type*) where
  | event (e : ε)
  | poll (input : π)

def Polled.step (event : ε → β → β) (poll : π → β → ρ × β) (s : Polled β ρ) :
    PollLabel ε π → Option (Polled β ρ)
  | .event e => some { s with value := event e s.value }
  | .poll input => some ⟨(poll input s.value).2,s.log ++ [(poll input s.value).1]⟩

/-- Results that go on, one that ends them, and then silence. -/
def Fused (more : α → Prop) (silent : α) (rs : List α) : Prop :=
  ∃ front tail, rs = front ++ tail ∧ (∀ a ∈ front, more a) ∧
    (tail = [] ∨ ∃ a n, ¬ more a ∧ tail = a :: List.replicate n silent)

def Over (more : α → Prop) (rs : List α) : Prop := ∃ a ∈ rs, ¬ more a

section
variable {more : α → Prop} {silent : α} {rs : List α}

theorem fused_nil : Fused more silent [] := ⟨[],[],rfl,fun _ h => (List.not_mem_nil h).elim,.inl rfl⟩

theorem fused_concat (h : Fused more silent rs) (a : α) :
    Fused more silent (rs ++ [a]) ↔ (Over more rs → a = silent) := by
  constructor
  · rintro ⟨front,tail,heq,hfront,htail⟩ ⟨b,hb,hend⟩
    rcases htail with rfl | ⟨c,n,-,rfl⟩
    · rw [List.append_nil] at heq
      exact (hend (hfront b (heq ▸ List.mem_append_left _ hb))).elim
    · cases n with
      | zero =>
        obtain ⟨hrs,-⟩ := List.append_inj' heq rfl
        exact (hend (hfront b (hrs ▸ hb))).elim
      | succ n =>
        rw [List.replicate_succ',← List.cons_append,← List.append_assoc] at heq
        obtain ⟨-,hlast⟩ := List.append_inj' heq rfl
        exact (List.cons.inj hlast).1
  · intro hsilent
    obtain ⟨front,tail,rfl,hfront,htail⟩ := h
    rcases htail with rfl | ⟨c,n,hc,rfl⟩
    · rw [List.append_nil]
      by_cases ha : more a
      · refine ⟨front ++ [a],[],(List.append_nil _).symm,fun b hb => ?_,.inl rfl⟩
        rcases List.mem_append.mp hb with hb | hb
        · exact hfront b hb
        · exact List.mem_singleton.mp hb ▸ ha
      · exact ⟨front,[a],rfl,hfront,.inr ⟨a,0,ha,rfl⟩⟩
    · have hover : Over more (front ++ c :: List.replicate n silent) := ⟨c,by simp,hc⟩
      refine ⟨front,c :: List.replicate (n + 1) silent,?_,hfront,.inr ⟨c,n + 1,hc,rfl⟩⟩
      rw [hsilent hover,List.append_assoc,List.cons_append,List.replicate_succ']

end

section
variable (event : ε → β → β) (poll : π → β → ρ × β) (out : ρ → List α) (more : α → Prop) (silent : α)

def QuietPolls (quiet : π → β → Prop) (s : Polled β ρ) (l : PollLabel ε π) : Prop :=
  ∀ input, l = .poll input → Over more (s.log.flatMap out) → quiet input s.value

/-- A stream of single results is fused in a run exactly when its polls stay
quiet once it is over. -/
theorem always_fused_iff (quiet : π → β → Prop) (hout : ∀ r, out r = [] ∨ ∃ a, out r = [a])
    (hquiet : ∀ input value, quiet input value ↔ ∀ a ∈ out (poll input value).1, a = silent) (value : β)
    (ls : List (PollLabel ε π)) :
    Always (Polled.step event poll) (fun s => Fused more silent (s.log.flatMap out)) ⟨value,[]⟩ ls ↔
      Meets (Polled.step event poll) (QuietPolls out more quiet) ⟨value,[]⟩ ls := by
  have hrun : ∀ (ls : List (PollLabel ε π)) (s : Polled β ρ),
      ∃ t, exec (Polled.step event poll) s ls = some t := by
    intro ls
    induction ls with
    | nil => exact fun s => ⟨s,rfl⟩
    | cons l ls ih =>
      intro s
      cases l with
      | event e => exact ih { s with value := event e s.value }
      | poll input => exact ih ⟨(poll input s.value).2,s.log ++ [(poll input s.value).1]⟩
  obtain ⟨t,ht⟩ := hrun ls ⟨value,[]⟩
  refine always_iff_meets (I := fun _ => True) (fun _ _ _ _ _ _ => trivial) ?_ trivial fused_nil
    meets_true ht
  rintro s l t - hP - hst
  cases l with
  | event e =>
    cases hst
    exact ⟨fun _ => nofun,fun _ => hP⟩
  | poll input =>
    cases hst
    have hstep : Fused more silent ((s.log ++ [(poll input s.value).1]).flatMap out) ↔
        (Over more (s.log.flatMap out) → quiet input s.value) := by
      rw [List.flatMap_append,List.flatMap_singleton,hquiet]
      rcases hout (poll input s.value).1 with hr | ⟨a,hr⟩
      · rw [hr,List.append_nil]
        exact ⟨fun _ _ _ h => (List.not_mem_nil h).elim,fun _ => hP⟩
      · rw [hr,fused_concat hP]
        exact forall_congr' fun _ => by rw [List.forall_mem_singleton]
    refine hstep.trans ⟨fun h input' he => ?_,fun h => h input rfl⟩
    cases he
    exact h

end

end GrpcQuic.Transition
