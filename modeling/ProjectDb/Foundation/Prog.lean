import Mathlib.Logic.Relation

/-- The value and state of a computation that has not thrown. -/
def EStateM.Result.ok? {ε σ α : Type} : EStateM.Result ε σ α → Option (α × σ)
  | .ok a s => some (a, s)
  | .error _ _ => none

theorem EStateM.Result.ok?_eq_some {ε σ α : Type} {r : EStateM.Result ε σ α} {a : α} {s : σ} :
    r.ok? = some (a, s) ↔ r = .ok a s := by
  cases r <;> simp [ok?]

/-- A program over a shared state: atomic actions in sequence, the rest of the
program chosen from the state in which the action runs. Other threads may act,
and the process may stop, between any two actions. -/
inductive Prog (σ ε α : Type) : Type
  | ret (a : α)
  | throw (e : ε)
  | act (update : σ → σ) (next : σ → Prog σ ε α)

namespace Prog
variable {σ ε α β : Type}

protected def bind : Prog σ ε α → (α → Prog σ ε β) → Prog σ ε β
  | ret a, f => f a
  | throw e, _ => throw e
  | act update next, f => act update fun s => (next s).bind f

instance : Monad (Prog σ ε) where
  pure := ret
  bind := Prog.bind

/-- A sequential computation performed as one atomic action. -/
def atomic (f : EStateM ε σ α) : Prog σ ε α :=
  act (fun s => match f s with | .ok _ t => t | .error _ t => t)
    fun s => match f s with | .ok a _ => ret a | .error e _ => throw e

/-- Run the program alone, without interruption. -/
def run : Prog σ ε α → EStateM ε σ α
  | ret a, s => .ok a s
  | throw e, s => .error e s
  | act update next, s => (next s).run (update s)

@[simp] theorem run_ret (a : α) (s : σ) : (ret a : Prog σ ε α).run s = .ok a s := rfl

@[simp] theorem run_pure (a : α) (s : σ) : (pure a : Prog σ ε α).run s = .ok a s := rfl

@[simp] theorem run_atomic (f : EStateM ε σ α) : (atomic f).run = f := by
  funext s
  simp only [atomic, run]
  cases f s <;> rfl

@[simp] theorem run_bind (p : Prog σ ε α) (f : α → Prog σ ε β) (s : σ) :
    (p >>= f).run s = match p.run s with
      | .ok a t => (f a).run t
      | .error e t => .error e t := by
  induction p generalizing s with
  | ret a => rfl
  | throw e => rfl
  | act update next ih => exact ih s (update s)

/-- One step of the program, or of the other threads beside it. -/
inductive Step (rely : σ → σ → Prop) : Prog σ ε α × σ → Prog σ ε α × σ → Prop
  | act {update : σ → σ} {next : σ → Prog σ ε α} {s : σ} : Step rely (act update next, s) (next s, update s)
  | other {p : Prog σ ε α} {s t : σ} : rely s t → Step rely (p, s) (p, t)

/-- Some execution of the program among steps of other threads gets here. -/
def Reaches (rely : σ → σ → Prop) (p : Prog σ ε α) (s : σ) (q : Prog σ ε α) (t : σ) : Prop :=
  Relation.ReflTransGen (Step rely) (p, s) (q, t)

/-- What every step keeps of a program and its state holds wherever an
execution gets. -/
theorem Reaches.invariant {rely : σ → σ → Prop} {I : Prog σ ε α → σ → Prop} {p q : Prog σ ε α} {s t : σ}
    (path : Reaches rely p s q t) (first : I p s)
    (acts : ∀ (update : σ → σ) (next : σ → Prog σ ε α) s, I (.act update next) s → I (next s) (update s))
    (others : ∀ p s t, I p s → rely s t → I p t) : I q t := by
  have along : ∀ c, Relation.ReflTransGen (Step rely) (p, s) c → I c.1 c.2 := by
    intro c steps
    induction steps with
    | refl => exact first
    | tail _ step ih =>
      cases step with
      | act => exact acts _ _ _ ih
      | other moved => exact others _ _ _ ih moved
  exact along (q, t) path

theorem reaches_run (rely : σ → σ → Prop) (p : Prog σ ε α) (s : σ) :
    match p.run s with
    | .ok a t => Reaches rely p s (ret a) t
    | .error e t => Reaches rely p s (throw e) t := by
  induction p generalizing s with
  | ret a => exact .refl
  | throw e => exact .refl
  | act update next ih =>
    have rest := ih s (update s)
    unfold run
    cases result : (next s).run (update s) with
    | ok a t =>
      rw [result] at rest
      exact .head .act rest
    | error e t =>
      rw [result] at rest
      exact .head .act rest

theorem reaches_returns {rely : σ → σ → Prop} {p : Prog σ ε α} {s t : σ} {a : α} (run : p.run s = .ok a t) :
    Reaches rely p s (ret a) t := by
  have path := reaches_run rely p s
  rwa [run] at path

theorem reaches_throws {rely : σ → σ → Prop} {p : Prog σ ε α} {s t : σ} {e : ε} (run : p.run s = .error e t) :
    Reaches rely p s (throw e) t := by
  have path := reaches_run rely p s
  rwa [run] at path

/-- The first actions of the program, without interruption. -/
def advance : Nat → Prog σ ε α → σ → Prog σ ε α × σ
  | n + 1, act update next, s => advance n (next s) (update s)
  | _, p, s => (p, s)

/-- The action that the program performs next, if it has one. -/
def action? : Prog σ ε α → Option (σ → σ)
  | act update _ => some update
  | _ => none

theorem action?_eq_some {p : Prog σ ε α} {update : σ → σ} (next : p.action? = some update) :
    ∃ rest, p = act update rest := by
  cases p with
  | ret a => contradiction
  | throw e => contradiction
  | act first rest =>
    cases next
    exact ⟨rest, rfl⟩

theorem reaches_advance (rely : σ → σ → Prop) (n : Nat) (p : Prog σ ε α) (s : σ) :
    Reaches rely p s (advance n p s).1 (advance n p s).2 := by
  fun_induction advance n p s with
  | case1 n update next s ih => exact .head .act ih
  | case2 => exact .refl

/-- Every execution of the program among `rely` steps of other threads keeps
`always`, throws only what is `raised` and ends in `final`. -/
def Safe (rely : σ → σ → Prop) (always : σ → Prop) (raised : ε → Prop) (final : α → σ → Prop) :
    Prog σ ε α → σ → Prop
  | ret a, s => ∀ t, Relation.ReflTransGen rely s t → always t ∧ final a t
  | throw e, s => (∀ t, Relation.ReflTransGen rely s t → always t) ∧ raised e
  | act update next, s => ∀ t, Relation.ReflTransGen rely s t →
      always t ∧ Safe rely always raised final (next t) (update t)

section Rules
variable {rely : σ → σ → Prop} {always : σ → Prop} {raised : ε → Prop} {final : α → σ → Prop} {s t : σ}

theorem Safe.now {p : Prog σ ε α} (safe : p.Safe rely always raised final s) : always s := by
  cases p with
  | ret a => exact (safe s .refl).1
  | throw e => exact safe.1 s .refl
  | act update next => exact (safe s .refl).1

theorem Safe.interfere {p : Prog σ ε α} (safe : p.Safe rely always raised final s) (step : rely s t) :
    p.Safe rely always raised final t := by
  cases p with
  | ret a => exact fun u steps => safe u (.head step steps)
  | throw e => exact ⟨fun u steps => safe.1 u (.head step steps), safe.2⟩
  | act update next => exact fun u steps => safe u (.head step steps)

theorem Safe.act {update : σ → σ} {next : σ → Prog σ ε α}
    (safe : (Prog.act update next).Safe rely always raised final s) :
    (next s).Safe rely always raised final (update s) := (safe s .refl).2

theorem Safe.returned {a : α} (safe : (ret a : Prog σ ε α).Safe rely always raised final s) : final a s :=
  (safe s .refl).2

/-- Wherever an execution gets, the rest of the program is as safe. -/
theorem Safe.reaches {p q : Prog σ ε α} (safe : p.Safe rely always raised final s) (path : Reaches rely p s q t) :
    q.Safe rely always raised final t :=
  path.invariant safe (fun _ _ _ now => now.act) fun _ _ _ now moved => now.interfere moved

theorem Safe.bind {p : Prog σ ε α} {f : α → Prog σ ε β} {after : β → σ → Prop}
    (first : p.Safe rely always raised final s)
    (rest : ∀ a t, final a t → (f a).Safe rely always raised after t) :
    (p >>= f).Safe rely always raised after s := by
  induction p generalizing s with
  | ret a => exact rest a s first.returned
  | throw e => exact first
  | act update next ih => exact fun t steps => ⟨(first t steps).1, ih t (first t steps).2⟩

theorem Safe.mono {p : Prog σ ε α} {weaker : α → σ → Prop} (safe : p.Safe rely always raised final s)
    (implies : ∀ a t, final a t → weaker a t) : p.Safe rely always raised weaker s := by
  induction p generalizing s with
  | ret a => exact fun t steps => ⟨(safe t steps).1, implies a t (safe t steps).2⟩
  | throw e => exact safe
  | act update next ih => exact fun t steps => ⟨(safe t steps).1, ih t (safe t steps).2⟩

theorem Safe.weaken {p : Prog σ ε α} {lasting : σ → Prop} (safe : p.Safe rely always raised final s)
    (implies : ∀ t, always t → lasting t) : p.Safe rely lasting raised final s := by
  induction p generalizing s with
  | ret a => exact fun t steps => ⟨implies t (safe t steps).1, (safe t steps).2⟩
  | throw e => exact ⟨fun t steps => implies t (safe.1 t steps), safe.2⟩
  | act update next ih => exact fun t steps => ⟨implies t (safe t steps).1, ih t (safe t steps).2⟩

theorem Safe.widen {p : Prog σ ε α} {broader : ε → Prop} (safe : p.Safe rely always raised final s)
    (implies : ∀ e, raised e → broader e) : p.Safe rely always broader final s := by
  induction p generalizing s with
  | ret a => exact safe
  | throw e => exact ⟨safe.1, implies e safe.2⟩
  | act update next ih => exact fun t steps => ⟨(safe t steps).1, ih t (safe t steps).2⟩

/-- No step of the environment invalidates an assertion. -/
def Stable (rely : σ → σ → Prop) (P : σ → Prop) : Prop := ∀ ⦃s t⦄, P s → rely s t → P t

theorem Stable.steps {P : σ → Prop} (stable : Stable rely P) (holds : P s) (steps : Relation.ReflTransGen rely s t) : P t := by
  induction steps with
  | refl => exact holds
  | tail _ step ih => exact stable ih step

/-- An assertion that holds between two actions: no step of the environment
invalidates it, and it implies `always`. -/
structure Assertion (rely : σ → σ → Prop) (always : σ → Prop) (assertion : σ → Prop) : Prop where
  stable : ∀ ⦃s t⦄, assertion s → rely s t → assertion t
  within : ∀ ⦃s⦄, assertion s → always s

variable {P : σ → Prop} {Q : α → σ → Prop}

theorem Assertion.steps (asserted : Assertion rely always P) (holds : P s)
    (steps : Relation.ReflTransGen rely s t) : P t := Stable.steps asserted.stable holds steps

theorem Assertion.weaken {lasting : σ → Prop} (asserted : Assertion rely always P) (implies : ∀ t, always t → lasting t) :
    Assertion rely lasting P :=
  ⟨asserted.stable, fun _ holds => implies _ (asserted.within holds)⟩

theorem Assertion.and_pure (asserted : Assertion rely always P) (p : Prop) :
    Assertion rely always fun t => p ∧ P t :=
  ⟨fun _ _ holds step => ⟨holds.1, asserted.stable holds.2 step⟩, fun _ holds => asserted.within holds.2⟩

theorem Assertion.and (asserted : Assertion rely always P) {R : σ → Prop} (stable : ∀ ⦃s t⦄, R s → rely s t → R t) :
    Assertion rely always fun t => P t ∧ R t :=
  ⟨fun _ _ holds step => ⟨asserted.stable holds.1 step, stable holds.2 step⟩, fun _ holds => asserted.within holds.1⟩

theorem Safe.ret {a : α} (post : Assertion rely always (Q a)) (holds : Q a s) :
    (Prog.ret a : Prog σ ε α).Safe rely always raised Q s := fun _ steps =>
  ⟨post.within (post.steps holds steps), post.steps holds steps⟩

/-- The rule of one atomic action between two assertions, with a third one for
the states in which it throws. -/
theorem Safe.attempt {f : EStateM ε σ α} {failed : σ → Prop} (before : Assertion rely always P)
    (after : ∀ a, Assertion rely always (Q a)) (broken : Assertion rely always failed) (holds : P s)
    (effect : ∀ t, P t → match f t with
      | .ok a u => Q a u
      | .error e u => raised e ∧ failed u) :
    (Prog.atomic f).Safe rely always raised Q s := by
  intro t steps
  have now := before.steps holds steps
  have done := effect t now
  refine ⟨before.within now, ?_⟩
  cases run : f t with
  | ok a u =>
    rw [run] at done
    simp only [run]
    exact Safe.ret (after a) done
  | error e u =>
    rw [run] at done
    simp only [run]
    exact ⟨fun x later => broken.within (broken.steps done.2 later), done.1⟩

/-- The rule of an action that does not throw. -/
theorem Safe.atomic {f : EStateM ε σ α} (before : Assertion rely always P)
    (after : ∀ a, Assertion rely always (Q a)) (holds : P s)
    (effect : ∀ t, P t → ∃ a u, f t = .ok a u ∧ Q a u) :
    (Prog.atomic f).Safe rely always raised Q s := by
  refine Safe.attempt before after before holds fun t now => ?_
  obtain ⟨a, u, run, done⟩ := effect t now
  rw [run]
  exact done

/-- Read a part of the state. -/
def read (part : σ → α) : Prog σ ε α := .act id fun s => .ret (part s)

theorem Safe.readAs {part : σ → α} (before : Assertion rely always P) (after : ∀ a, Assertion rely always (Q a))
    (holds : P s) (known : ∀ t, P t → Q (part t) t) : (Prog.read part : Prog σ ε α).Safe rely always raised Q s := by
  intro t steps
  have now := before.steps holds steps
  exact ⟨before.within now, Safe.ret (after (part t)) (known t now)⟩

/-- Reading what an assertion determines. -/
theorem Safe.read {part : σ → α} {a : α} (asserted : Assertion rely always P) (holds : P s)
    (known : ∀ t, P t → part t = a) :
    (Prog.read part : Prog σ ε α).Safe rely always raised (fun b t => b = a ∧ P t) s :=
  Safe.readAs asserted (fun _ => asserted.and_pure _) holds fun t now => ⟨known t now, now⟩

/-- Run alone, a safe program ends in its postcondition or throws what it may. -/
theorem Safe.run {p : Prog σ ε α} (safe : p.Safe rely always raised final s) :
    match p.run s with
    | .ok a t => final a t
    | .error e _ => raised e := by
  induction p generalizing s with
  | ret a => exact safe.returned
  | throw e => exact safe.2
  | act update next ih => exact ih s safe.act

/-- Run alone, a safe program that may not throw returns. -/
theorem Safe.returns {p : Prog σ ε α} (safe : p.Safe rely always (fun _ => False) final s) :
    ∃ a t, p.run s = .ok a t ∧ final a t := by
  have ends := safe.run
  cases result : p.run s with
  | ok a t => rw [result] at ends; exact ⟨a, t, rfl, ends⟩
  | error e t => rw [result] at ends; exact ends.elim

end Rules
end Prog
