import ProjectDb.Foundation.Prog

/-- The state after a computation, whether it has thrown or not. -/
def EStateM.left {ε σ α : Type} (f : EStateM ε σ α) (s : σ) : σ :=
  match f s with
  | .ok _ t => t
  | .error _ t => t

/-- A computation that has returned ends in `Q`, one that has thrown in `T`. -/
def EStateM.Result.EndsIn {ε σ α : Type} (Q : α → σ → Prop) (T : ε → σ → Prop) : EStateM.Result ε σ α → Prop
  | .ok a t => Q a t
  | .error e t => T e t

theorem EStateM.Result.EndsIn.mono {ε σ α : Type} {Q R : α → σ → Prop} {T U : ε → σ → Prop}
    {result : EStateM.Result ε σ α} (ends : result.EndsIn Q T) (returns : ∀ a t, Q a t → R a t)
    (throws : ∀ e t, T e t → U e t) : result.EndsIn R U := by
  cases result with
  | ok a t => exact returns a t ends
  | error e t => exact throws e t ends

/-- What holds however a computation ends is what holds of the state after it. -/
theorem EStateM.endsIn_left {ε σ α : Type} {f : EStateM ε σ α} {s : σ} {P : σ → Prop} :
    ((f s).EndsIn (fun _ => P) fun _ => P) ↔ P (f.left s) := by
  unfold EStateM.left
  cases f s <;> exact Iff.rfl

theorem EStateM.left_bind {ε σ α β : Type} (f : EStateM ε σ α) (g : α → EStateM ε σ β) (s : σ) :
    (f >>= g).left s = match f s with
      | .ok a t => (g a).left t
      | .error _ t => t := by
  simp only [left, bind, EStateM.bind]
  cases f s <;> rfl

/-- What is kept by the first part of a computation and by the rest is kept by
the whole. -/
theorem EStateM.left_bind_same {ε σ α β γ : Type} {f : EStateM ε σ α} {g : α → EStateM ε σ β} {s : σ} {part : σ → γ}
    (first : part (f.left s) = part s) (rest : ∀ a t, f s = .ok a t → part ((g a).left t) = part t) :
    part ((f >>= g).left s) = part s := by
  rw [left_bind]
  cases run : f s with
  | ok a t =>
    simp only [left, run] at first
    exact (rest a t run).trans first
  | error e t =>
    simpa only [left, run] using first

namespace Prog
variable {σ ε α β : Type}

/-- Among `rely` steps of other threads every action of the program is a `guar`
step; it returns in `returned` and throws in `thrown`. -/
def Meets (rely guar : σ → σ → Prop) (returned : α → σ → Prop) (thrown : ε → σ → Prop) : Prog σ ε α → σ → Prop
  | ret a, s => ∀ t, Relation.ReflTransGen rely s t → returned a t
  | throw e, s => ∀ t, Relation.ReflTransGen rely s t → thrown e t
  | act update next, s => ∀ t, Relation.ReflTransGen rely s t →
      guar t (update t) ∧ Meets rely guar returned thrown (next t) (update t)

section Rules
variable {rely guar : σ → σ → Prop} {returned Q : α → σ → Prop} {thrown T : ε → σ → Prop} {P : σ → Prop} {s t : σ}

theorem Stable.and {R : σ → Prop} (first : Stable rely P) (second : Stable rely R) : Stable rely fun t => P t ∧ R t :=
  fun _ _ holds step => ⟨first holds.1 step, second holds.2 step⟩

theorem Meets.interfere {p : Prog σ ε α} (meets : p.Meets rely guar returned thrown s) (step : rely s t) :
    p.Meets rely guar returned thrown t := by
  cases p with
  | ret a => exact fun u steps => meets u (.head step steps)
  | throw e => exact fun u steps => meets u (.head step steps)
  | act update next => exact fun u steps => meets u (.head step steps)

/-- Wherever an execution gets, the rest of the program meets the same. -/
theorem Meets.reaches {p q : Prog σ ε α} (meets : p.Meets rely guar returned thrown s) (path : Reaches rely p s q t) :
    q.Meets rely guar returned thrown t :=
  path.invariant meets (fun _ _ s now => (now s .refl).2) fun _ _ _ now moved => now.interfere moved

theorem Meets.ret {a : α} (stable : Stable rely (Q a)) (holds : Q a s) :
    (Prog.ret a : Prog σ ε α).Meets rely guar Q thrown s := fun _ steps => stable.steps holds steps

theorem Meets.throw {e : ε} (stable : Stable rely (T e)) (holds : T e s) :
    (Prog.throw e : Prog σ ε α).Meets rely guar returned T s := fun _ steps => stable.steps holds steps

theorem Meets.bind {p : Prog σ ε α} {f : α → Prog σ ε β} {after : β → σ → Prop}
    (first : p.Meets rely guar returned thrown s)
    (rest : ∀ a t, returned a t → (f a).Meets rely guar after thrown t) : (p >>= f).Meets rely guar after thrown s := by
  induction p generalizing s with
  | ret a => exact rest a s (first s .refl)
  | throw e => exact first
  | act update next ih => exact fun t steps => ⟨(first t steps).1, ih t (first t steps).2⟩

theorem Meets.mono {p : Prog σ ε α} (meets : p.Meets rely guar returned thrown s)
    (returns : ∀ a t, returned a t → Q a t) (throws : ∀ e t, thrown e t → T e t) : p.Meets rely guar Q T s := by
  induction p generalizing s with
  | ret a => exact fun t steps => returns a t (meets t steps)
  | throw e => exact fun t steps => throws e t (meets t steps)
  | act update next ih => exact fun t steps => ⟨(meets t steps).1, ih t (meets t steps).2⟩

/-- A program meets the same among fewer steps of other threads. -/
theorem Meets.restrict {p : Prog σ ε α} {fewer : σ → σ → Prop} (meets : p.Meets rely guar returned thrown s)
    (within : ∀ s t, fewer s t → rely s t) : p.Meets fewer guar returned thrown s := by
  have lift {s t : σ} (steps : Relation.ReflTransGen fewer s t) : Relation.ReflTransGen rely s t :=
    Relation.ReflTransGen.mono within _ _ steps
  induction p generalizing s with
  | ret a => exact fun t steps => meets t (lift steps)
  | throw e => exact fun t steps => meets t (lift steps)
  | act update next ih => exact fun t steps => ⟨(meets t (lift steps)).1, ih t (meets t (lift steps)).2⟩

/-- The rule of one atomic action, which may throw. -/
theorem Meets.atomic {f : EStateM ε σ α} (before : Stable rely P) (after : ∀ a, Stable rely (Q a))
    (broken : ∀ e, Stable rely (T e)) (holds : P s)
    (effect : ∀ t, P t → guar t (f.left t) ∧ (f t).EndsIn Q T) :
    (Prog.atomic f).Meets rely guar Q T s := by
  intro t steps
  obtain ⟨moved, done⟩ := effect t (before.steps holds steps)
  unfold EStateM.left at moved
  cases run : f t with
  | ok a u =>
    rw [run] at done moved
    simp only [run]
    exact ⟨moved, Meets.ret (after a) done⟩
  | error e u =>
    rw [run] at done moved
    simp only [run]
    exact ⟨moved, Meets.throw (broken e) done⟩

theorem Meets.read {part : σ → α} (quiet : ∀ t, guar t t) (before : Stable rely P) (after : ∀ a, Stable rely (Q a))
    (holds : P s) (known : ∀ t, P t → Q (part t) t) : (Prog.read part : Prog σ ε α).Meets rely guar Q thrown s := by
  intro t steps
  have now := before.steps holds steps
  exact ⟨quiet t, Meets.ret (after (part t)) (known t now)⟩

/-- Run alone, a program that may not return throws. -/
theorem Meets.throws {p : Prog σ ε α} (meets : p.Meets rely guar (fun _ _ => False) thrown s) :
    ∃ e t, p.run s = .error e t ∧ thrown e t := by
  cases result : p.run s with
  | ok a t => exact (meets.reaches (reaches_returns result) t .refl).elim
  | error e t => exact ⟨e, t, rfl, meets.reaches (reaches_throws result) t .refl⟩

/-- No action of the program changes a part of the state. -/
def Keeps {γ : Type} (part : σ → γ) : Prog σ ε α → Prop
  | ret _ => True
  | throw _ => True
  | act update next => ∀ s, part (update s) = part s ∧ Keeps part (next s)

variable {γ : Type} {part : σ → γ}

theorem Keeps.bind {p : Prog σ ε α} {f : α → Prog σ ε β} (first : p.Keeps part) (rest : ∀ a, (f a).Keeps part) :
    (p >>= f).Keeps part := by
  induction p with
  | ret a => exact rest a
  | throw e => exact first
  | act update next ih => exact fun s => ⟨(first s).1, ih s (first s).2⟩

theorem Keeps.atomic {f : EStateM ε σ α} (same : ∀ s, part (f.left s) = part s) : (Prog.atomic f).Keeps part := by
  intro s
  have kept := same s
  unfold EStateM.left at kept
  cases run : f s with
  | ok a t =>
    rw [run] at kept
    simp only [run]
    exact ⟨kept, trivial⟩
  | error e t =>
    rw [run] at kept
    simp only [run]
    exact ⟨kept, trivial⟩

theorem Keeps.read {δ : Type} (other : σ → δ) : (Prog.read other : Prog σ ε δ).Keeps part := fun _ => ⟨rfl, trivial⟩

theorem Keeps.reaches {p q : Prog σ ε α} (keeps : p.Keeps part) (others : ∀ s t, rely s t → part t = part s)
    (path : Reaches rely p s q t) : part t = part s := by
  have kept : q.Keeps part ∧ part t = part s :=
    Reaches.invariant (I := fun p t => p.Keeps part ∧ part t = part s) path ⟨keeps, rfl⟩
      (fun _ _ u now => ⟨(now.1 u).2, (now.1 u).1.trans now.2⟩)
      fun _ u w now moved => ⟨now.1, (others u w moved).trans now.2⟩
  exact kept.2

/-- A safe program that keeps what the other threads keep ends with it. -/
theorem Safe.keep {p : Prog σ ε α} {always : σ → Prop} {raised : ε → Prop} {final : α → σ → Prop}
    (safe : p.Safe rely always raised final s) (keeps : p.Keeps part) (others : ∀ s t, rely s t → part t = part s) :
    p.Safe rely always raised (fun a t => final a t ∧ part t = part s) s := by
  have stays (s : σ) : Stable rely fun t => part t = part s := fun _ _ now moved => (others _ _ moved).trans now
  induction p generalizing s with
  | ret a => exact fun t path => ⟨(safe t path).1, (safe t path).2, (stays s).steps rfl path⟩
  | throw e => exact safe
  | act update next ih =>
    intro t path
    refine ⟨(safe t path).1, (ih t (safe t path).2 (keeps t).2).mono fun a u holds => ⟨holds.1, ?_⟩⟩
    rw [holds.2, (keeps t).1, (stays s).steps rfl path]

end Rules
end Prog
