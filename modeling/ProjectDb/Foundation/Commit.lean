import ProjectDb.Foundation.Prog

namespace Prog
variable {σ ε α β : Type}

/-- Every execution of the program keeps `before` until one of its actions
commits, and `after` from then on. It ends in `early` when it has not committed,
and in `late` when it has. -/
def Commits (rely : σ → σ → Prop) (before after : σ → Prop) (raised : ε → Prop) (early late : α → σ → Prop) :
    Prog σ ε α → σ → Prop
  | ret a, s => ∀ t, Relation.ReflTransGen rely s t → before t ∧ early a t
  | throw e, s => (∀ t, Relation.ReflTransGen rely s t → before t) ∧ raised e
  | act update next, s => ∀ t, Relation.ReflTransGen rely s t → before t ∧
      (Commits rely before after raised early late (next t) (update t) ∨
        (next t).Safe rely after raised late (update t))

section Rules
variable {rely : σ → σ → Prop} {before after always : σ → Prop} {raised : ε → Prop} {early late final : α → σ → Prop}
  {s t : σ}

theorem Safe.commits {p : Prog σ ε α} (safe : p.Safe rely before raised early s) :
    p.Commits rely before after raised early late s := by
  induction p generalizing s with
  | ret a => exact safe
  | throw e => exact safe
  | act update next ih => exact fun t steps => ⟨(safe t steps).1, Or.inl (ih t (safe t steps).2)⟩

theorem Commits.now {p : Prog σ ε α} (commits : p.Commits rely before after raised early late s) : before s := by
  cases p with
  | ret a => exact (commits s .refl).1
  | throw e => exact commits.1 s .refl
  | act update next => exact (commits s .refl).1

theorem Commits.interfere {p : Prog σ ε α} (commits : p.Commits rely before after raised early late s)
    (step : rely s t) : p.Commits rely before after raised early late t := by
  cases p with
  | ret a => exact fun u steps => commits u (.head step steps)
  | throw e => exact ⟨fun u steps => commits.1 u (.head step steps), commits.2⟩
  | act update next => exact fun u steps => commits u (.head step steps)

/-- Wherever an execution gets, the rest has still to commit, or is safe after it. -/
theorem Commits.reaches {p q : Prog σ ε α} (commits : p.Commits rely before after raised early late s)
    (path : Reaches rely p s q t) :
    q.Commits rely before after raised early late t ∨ q.Safe rely after raised late t := by
  refine path.invariant (I := fun p s => p.Commits rely before after raised early late s ∨
    p.Safe rely after raised late s) (Or.inl commits) ?_ ?_
  · intro update next s now
    rcases now with still | safe
    · exact (still s .refl).2
    · exact Or.inr safe.act
  · intro p s t now moved
    exact now.imp (·.interfere moved) (·.interfere moved)

/-- What is kept before and after the commit is kept always. -/
theorem Commits.safe {p : Prog σ ε α} (commits : p.Commits rely before after raised early late s)
    (kept : ∀ t, before t ∨ after t → always t) (ends : ∀ a t, early a t ∨ late a t → final a t) :
    p.Safe rely always raised final s := by
  induction p generalizing s with
  | ret a => exact fun t steps => ⟨kept t (Or.inl (commits t steps).1), ends a t (Or.inl (commits t steps).2)⟩
  | throw e => exact ⟨fun t steps => kept t (Or.inl (commits.1 t steps)), commits.2⟩
  | act update next ih =>
    intro t steps
    obtain ⟨holds, rest⟩ := commits t steps
    refine ⟨kept t (Or.inl holds), ?_⟩
    rcases rest with still | safe
    · exact ih t still
    · exact (safe.weaken fun u now => kept u (Or.inr now)).mono fun a u done => ends a u (Or.inr done)

theorem Commits.bind {p : Prog σ ε α} {f : α → Prog σ ε β} {idle done : β → σ → Prop}
    (first : p.Commits rely before after raised early late s)
    (still : ∀ a t, early a t → (f a).Commits rely before after raised idle done t)
    (rest : ∀ a t, late a t → (f a).Safe rely after raised done t) :
    (p >>= f).Commits rely before after raised idle done s := by
  induction p generalizing s with
  | ret a => exact still a s (first s .refl).2
  | throw e => exact first
  | act update next ih =>
    intro t steps
    obtain ⟨holds, committed⟩ := first t steps
    exact ⟨holds, committed.imp (ih t) (·.bind rest)⟩

/-- What comes before the commit in a sequence. -/
theorem Safe.bind_commits {p : Prog σ ε α} {f : α → Prog σ ε β} {idle done : β → σ → Prop}
    (first : p.Safe rely before raised final s)
    (rest : ∀ a t, final a t → (f a).Commits rely before after raised idle done t) :
    (p >>= f).Commits rely before after raised idle done s := by
  have commits : p.Commits rely before after raised final (fun _ _ => False) s := first.commits
  exact commits.bind rest fun _ _ never => never.elim

/-- The rule of an action that commits, and does not throw. -/
theorem Commits.atomic {f : EStateM ε σ α} {P : σ → Prop} {Q : α → σ → Prop} (unwritten : Assertion rely before P)
    (written : ∀ a, Assertion rely after (Q a)) (holds : P s) (effect : ∀ t, P t → ∃ a u, f t = .ok a u ∧ Q a u) :
    (Prog.atomic f).Commits rely before after raised early Q s := by
  intro t steps
  have now := unwritten.steps holds steps
  obtain ⟨a, u, run, reached⟩ := effect t now
  refine ⟨unwritten.within now, Or.inr ?_⟩
  simp only [run]
  exact Safe.ret (written a) reached

end Rules
end Prog
