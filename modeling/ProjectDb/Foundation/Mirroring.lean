import ProjectDb.Foundation.Guarantee
import ProjectDb.Foundation.Renaming

namespace Prog
variable {σ ε α β : Type}

/-- Among `rely` steps of other threads, as far as the states are `known`, every
action of the program does to a state beside the one it runs in what it does to
that one, and the program goes on alike. It returns in `final`. -/
def Mirrored (rely : σ → σ → Prop) (known : σ → Prop) (beside : σ → σ → Prop) (final : α → σ → Prop) :
    Prog σ ε α → σ → Prop
  | ret a, s => ∀ t, Relation.ReflTransGen rely s t → final a t
  | throw _, _ => True
  | act update next, s => ∀ t, Relation.ReflTransGen rely s t → known t →
      (∀ t', beside t t' → next t' = next t ∧ beside (update t) (update t')) ∧
        Mirrored rely known beside final (next t) (update t)

section Rules
variable {rely finer : σ → σ → Prop} {known : σ → Prop} {beside : σ → σ → Prop} {final Q : α → σ → Prop}
  {P : σ → Prop} {s s' t t' : σ}

theorem Mirrored.interfere {p : Prog σ ε α} (mirrored : p.Mirrored rely known beside final s)
    (steps : Relation.ReflTransGen rely s t) : p.Mirrored rely known beside final t := by
  cases p with
  | ret a => exact fun u more => mirrored u (steps.trans more)
  | throw e => trivial
  | act update next => exact fun u more => mirrored u (steps.trans more)

/-- An execution beside another state, among the steps of `finer` threads,
follows an execution in that state: they get to the same rest of the program. -/
theorem Mirrored.reaches {p q : Prog σ ε α} (mirrored : p.Mirrored rely known beside final s)
    (knows : ∀ q t, Reaches rely p s q t → known t)
    (steps : ∀ t t' u', known t → beside t t' → finer t' u' → ∃ u, Relation.ReflTransGen rely t u ∧ beside u u')
    (related : beside s s') (path : Reaches finer p s' q t') : ∃ t, Reaches rely p s q t ∧ beside t t' := by
  have along : ∃ t, (Reaches rely p s q t ∧ beside t t') ∧ q.Mirrored rely known beside final t := by
    refine path.invariant (I := fun q t' => ∃ t, (Reaches rely p s q t ∧ beside t t') ∧
      q.Mirrored rely known beside final t) ⟨s, ⟨.refl, related⟩, mirrored⟩ ?_ ?_
    · rintro update next u' ⟨u, ⟨reached, near⟩, still⟩
      obtain ⟨same, rest⟩ := still u .refl (knows _ _ reached)
      obtain ⟨next_eq, now⟩ := same u' near
      rw [next_eq]
      exact ⟨update u, ⟨reached.tail .act, now⟩, rest⟩
    · rintro q u' w' ⟨u, ⟨reached, near⟩, still⟩ moved
      obtain ⟨w, others, now⟩ := steps u u' w' (knows _ _ reached) near moved
      exact ⟨w, ⟨reached.trans (others.lift (fun x => (q, x)) fun _ _ => .other), now⟩, still.interfere others⟩
  obtain ⟨t, reached, _⟩ := along
  exact ⟨t, reached⟩

theorem Mirrored.ret {a : α} (stable : Stable rely (Q a)) (holds : Q a s) :
    (Prog.ret a : Prog σ ε α).Mirrored rely known beside Q s := fun _ steps => stable.steps holds steps

theorem Mirrored.bind {p : Prog σ ε α} {f : α → Prog σ ε β} {after : β → σ → Prop}
    (first : p.Mirrored rely known beside final s)
    (rest : ∀ a t, final a t → (f a).Mirrored rely known beside after t) :
    (p >>= f).Mirrored rely known beside after s := by
  induction p generalizing s with
  | ret a => exact rest a s (first s .refl)
  | throw e => trivial
  | act update next ih =>
    intro t steps knows
    obtain ⟨same, still⟩ := first t steps knows
    refine ⟨fun t' near => ?_, ih t still⟩
    obtain ⟨next_eq, now⟩ := same t' near
    exact ⟨congrArg (·.bind f) next_eq, now⟩

/-- A program is mirrored among fewer steps of other threads, and in fewer states. -/
theorem Mirrored.restrict {p : Prog σ ε α} {fewer : σ → σ → Prop} {sharper : σ → Prop}
    (mirrored : p.Mirrored rely known beside final s) (within : ∀ s t, fewer s t → rely s t)
    (implies : ∀ t, sharper t → known t) : p.Mirrored fewer sharper beside final s := by
  have lift {s t : σ} (steps : Relation.ReflTransGen fewer s t) : Relation.ReflTransGen rely s t :=
    Relation.ReflTransGen.mono within _ _ steps
  induction p generalizing s with
  | ret a => exact fun t steps => mirrored t (lift steps)
  | throw e => trivial
  | act update next ih =>
    intro t steps knows
    obtain ⟨same, still⟩ := mirrored t (lift steps) (implies t knows)
    exact ⟨same, ih t still⟩

/-- The rule of one atomic action. -/
theorem Mirrored.atomic {f : EStateM ε σ α} (before : Stable rely P) (after : ∀ a, Stable rely (Q a)) (holds : P s)
    (effect : ∀ t, P t → known t → (∀ a u, f t = .ok a u → Q a u) ∧ ∀ t', beside t t' → (f t).Matches beside Eq (f t')) :
    (Prog.atomic f).Mirrored rely known beside Q s := by
  intro t steps knows
  obtain ⟨ends, same⟩ := effect t (before.steps holds steps) knows
  refine ⟨fun t' near => ?_, ?_⟩
  · have both := same t' near
    cases run : f t with
    | ok a u =>
      rw [run] at both
      obtain ⟨b, u', other, rfl, states⟩ := both.of_ok
      simp only [run, other]
      exact ⟨trivial, states⟩
    | error e u =>
      rw [run] at both
      obtain ⟨u', other, states⟩ := both.of_error
      simp only [run, other]
      exact ⟨trivial, states⟩
  · cases run : f t with
    | ok a u =>
      simp only [run]
      exact Mirrored.ret (after a) (ends a u run)
    | error e u =>
      simp only [run]
      trivial

/-- Reading what is the same in both states. -/
theorem Mirrored.read {part : σ → α} (before : Stable rely P) (after : ∀ a, Stable rely (Q a)) (holds : P s)
    (same : ∀ t t', beside t t' → part t' = part t) (reads : ∀ t, P t → known t → Q (part t) t) :
    (Prog.read part : Prog σ ε α).Mirrored rely known beside Q s := by
  intro t steps knows
  have now := before.steps holds steps
  exact ⟨fun t' near => ⟨congrArg Prog.ret (same t t' near), near⟩, Mirrored.ret (after (part t)) (reads t now knows)⟩

end Rules
end Prog
