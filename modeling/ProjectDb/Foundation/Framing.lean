import ProjectDb.Foundation.Guarantee

/-- A computation in two parts that may throw in either of them. -/
theorem EStateM.endsIn_bind {ε σ α β : Type} {f : EStateM ε σ α} {g : α → EStateM ε σ β} {s : σ} {Q : α → σ → Prop}
    {R : β → σ → Prop} {T : ε → σ → Prop} (first : (f s).EndsIn Q T) (rest : ∀ a t, Q a t → (g a t).EndsIn R T) :
    ((f >>= g) s).EndsIn R T := by
  simp only [bind, EStateM.bind]
  cases run : f s with
  | ok a t =>
    rw [run] at first
    exact rest a t first
  | error e t =>
    rw [run] at first
    exact first

namespace Prog
variable {σ ε α γ : Type} {rely : σ → σ → Prop} {s : σ} {p : Prog σ ε α}

/-- What two proofs of safety say of a program holds together. -/
theorem Safe.and {always always' : σ → Prop} {raised raised' : ε → Prop} {final final' : α → σ → Prop}
    (first : p.Safe rely always raised final s) (second : p.Safe rely always' raised' final' s) :
    p.Safe rely (fun t => always t ∧ always' t) (fun e => raised e ∧ raised' e) (fun a t => final a t ∧ final' a t) s := by
  induction p generalizing s with
  | ret a => exact fun t path => ⟨⟨(first t path).1, (second t path).1⟩, (first t path).2, (second t path).2⟩
  | throw e => exact ⟨fun t path => ⟨first.1 t path, second.1 t path⟩, first.2, second.2⟩
  | act update next ih =>
    exact fun t path => ⟨⟨(first t path).1, (second t path).1⟩, ih t (first t path).2 (second t path).2⟩

/-- An assertion about a part that no action changes holds throughout. -/
theorem Keeps.safe {part : σ → γ} {P : σ → Prop} {raised : ε → Prop} (keeps : p.Keeps part) (stable : Stable rely P)
    (depends : ∀ s t, part t = part s → P s → P t) (holds : P s) (throws : ∀ e, raised e) :
    p.Safe rely P raised (fun _ => P) s := by
  induction p generalizing s with
  | ret a => exact fun t path => ⟨stable.steps holds path, stable.steps holds path⟩
  | throw e => exact ⟨fun t path => stable.steps holds path, throws e⟩
  | act update next ih =>
    intro t path
    have now := stable.steps holds path
    exact ⟨now, ih t (keeps t).2 (depends _ _ (keeps t).1 now)⟩

end Prog
