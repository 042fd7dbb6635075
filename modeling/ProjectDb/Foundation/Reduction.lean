import ProjectDb.Foundation.Guarantee
import ProjectDb.Foundation.Renaming

namespace Prog
variable {σ ε α β : Type}

/-- The steps of other threads among the actions of the program may all be taken
after them: each action does after those steps what it does before them, and they
may follow it. Run alone, the program is in `always` states. -/
def Outruns (rely : σ → σ → Prop) (always : σ → Prop) : Prog σ ε α → σ → Prop
  | ret _, s => always s
  | throw _, s => always s
  | act update next, s => always s ∧ (∀ t, Relation.ReflTransGen rely s t →
      next t = next s ∧ Relation.ReflTransGen rely (update s) (update t)) ∧ Outruns rely always (next s) (update s)

/-- An execution without other threads. -/
abbrev Alone (p : Prog σ ε α) (s : σ) (q : Prog σ ε α) (t : σ) : Prop := Reaches (fun _ _ => False) p s q t

theorem Alone.run {p q : Prog σ ε α} {s t : σ} (alone : Alone p s q t) : p.run s = q.run t := by
  refine (Reaches.invariant (I := fun q t => q.run t = p.run s) alone rfl (fun update next u same => ?_)
    fun _ _ _ _ => False.elim).symm
  exact same

/-- An execution is one among more steps of other threads. -/
theorem Reaches.widen {rely wider : σ → σ → Prop} {p q : Prog σ ε α} {s t : σ} (path : Reaches rely p s q t)
    (within : ∀ s t, rely s t → wider s t) : Reaches wider p s q t := by
  refine path.invariant (I := fun q t => Reaches wider p s q t) .refl (fun update next u reached => ?_)
    fun q u u' reached moved => ?_
  · exact reached.tail .act
  · exact reached.tail (.other (within u u' moved))

/-- Programs in sequence, run alone. -/
theorem run_seq (p : Prog σ ε α) (f : α → Prog σ ε β) : (p >>= f).run = p.run >>= fun a => (f a).run := by
  funext s
  rw [run_bind]
  simp only [bind, EStateM.bind]
  cases p.run s <;> rfl

section Rules
variable {rely : σ → σ → Prop} {always P : σ → Prop} {s t u : σ}

theorem Outruns.now {p : Prog σ ε α} (outruns : p.Outruns rely always s) : always s := by
  cases p with
  | ret a => exact outruns
  | throw e => exact outruns
  | act update next => exact outruns.1

theorem Outruns.ends {p : Prog σ ε α} {a : α} (outruns : p.Outruns rely always s) (run : p.run s = .ok a u) : always u := by
  induction p generalizing s with
  | ret b =>
    cases run
    exact outruns
  | throw e => cases run
  | act update next ih => exact ih s outruns.2.2 run

/-- Wherever an execution gets among other threads, the program gets alone, and
then the other threads take their steps. -/
theorem Outruns.reaches {p q : Prog σ ε α} (outruns : p.Outruns rely always s) (path : Reaches rely p s q t) :
    ∃ u, Alone p s q u ∧ always u ∧ Relation.ReflTransGen rely u t := by
  have along : ∃ u, (Alone p s q u ∧ Relation.ReflTransGen rely u t) ∧ q.Outruns rely always u := by
    refine path.invariant (I := fun q t => ∃ u, (Alone p s q u ∧ Relation.ReflTransGen rely u t) ∧
      q.Outruns rely always u) ⟨s, ⟨.refl, .refl⟩, outruns⟩ ?_ ?_
    · rintro update next t ⟨u, ⟨alone, steps⟩, _, moves, rest⟩
      obtain ⟨same, later⟩ := moves t steps
      rw [same]
      exact ⟨update u, ⟨alone.tail .act, later⟩, rest⟩
    · rintro q t x ⟨u, ⟨alone, steps⟩, rest⟩ moved
      exact ⟨u, ⟨alone, steps.tail moved⟩, rest⟩
  obtain ⟨u, ⟨alone, steps⟩, rest⟩ := along
  exact ⟨u, alone, rest.now, steps⟩

theorem Outruns.bind {p : Prog σ ε α} {f : α → Prog σ ε β} (first : p.Outruns rely always s)
    (rest : ∀ a u, p.run s = .ok a u → (f a).Outruns rely always u) : (p >>= f).Outruns rely always s := by
  induction p generalizing s with
  | ret a => exact rest a s rfl
  | throw e => exact first
  | act update next ih =>
    obtain ⟨now, moves, later⟩ := first
    refine ⟨now, fun t steps => ?_, ih s later rest⟩
    obtain ⟨same, after⟩ := moves t steps
    exact ⟨congrArg (·.bind f) same, after⟩

/-- What an action does after one step of another thread it does after all of them. -/
theorem follows {f : EStateM ε σ α} (stable : Stable rely P) (holds : P s)
    (moves : ∀ t u, P t → rely t u → (f t).Matches (Relation.ReflTransGen rely) Eq (f u))
    (steps : Relation.ReflTransGen rely s t) : (f s).Matches (Relation.ReflTransGen rely) Eq (f t) := by
  induction steps with
  | refl =>
    cases f s with
    | ok a u => exact .ok rfl .refl
    | error e u => exact .error e .refl
  | @tail t u steps step ih =>
    have next := moves t u (stable.steps holds steps) step
    cases first : f s with
    | ok a s' =>
      rw [first] at ih
      obtain ⟨_, t', second, rfl, earlier⟩ := ih.of_ok
      rw [second] at next
      obtain ⟨_, u', third, rfl, later⟩ := next.of_ok
      rw [third]
      exact .ok rfl (earlier.trans later)
    | error e s' =>
      rw [first] at ih
      obtain ⟨t', second, earlier⟩ := ih.of_error
      rw [second] at next
      obtain ⟨u', third, later⟩ := next.of_error
      rw [third]
      exact .error e (earlier.trans later)

/-- The rule of one action. -/
theorem Outruns.atomic {f : EStateM ε σ α} (stable : Stable rely P) (holds : P s)
    (moves : ∀ t u, P t → rely t u → (f t).Matches (Relation.ReflTransGen rely) Eq (f u)) (now : always s)
    (after : always (f.left s)) : (Prog.atomic f).Outruns rely always s := by
  have both (t : σ) (steps : Relation.ReflTransGen rely s t) := follows stable holds moves steps
  unfold EStateM.left at after
  cases run : f s with
  | ok a u =>
    rw [run] at after
    refine ⟨now, fun t steps => ?_, ?_⟩
    · have matched := both t steps
      rw [run] at matched
      obtain ⟨_, x, other, rfl, later⟩ := matched.of_ok
      simp only [run, other]
      exact ⟨trivial, later⟩
    · simp only [run]
      exact after
  | error e u =>
    rw [run] at after
    refine ⟨now, fun t steps => ?_, ?_⟩
    · have matched := both t steps
      rw [run] at matched
      obtain ⟨x, other, later⟩ := matched.of_error
      simp only [run, other]
      exact ⟨trivial, later⟩
    · simp only [run]
      exact after

/-- Reading what other threads do not change. -/
theorem Outruns.read {part : σ → α} (stable : Stable rely P) (holds : P s)
    (same : ∀ t u, P t → rely t u → part u = part t) (now : always s) :
    (Prog.read part : Prog σ ε α).Outruns rely always s := by
  refine ⟨now, fun t steps => ⟨?_, steps⟩, now⟩
  have constant : ∀ t, Relation.ReflTransGen rely s t → part t = part s := by
    intro t steps
    induction steps with
    | refl => rfl
    | tail steps step ih => exact (same _ _ (stable.steps holds steps) step).trans ih
  exact congrArg Prog.ret (constant t steps)

end Rules
end Prog
