import ProjectDb.Foundation.ByteStream
import ProjectDb.Foundation.Guarantee

/-- On a good stream the decoder returns with the stream still good, or throws
a `torn` exception with the stream failed; the bytes stay as they are. -/
def Latches {ε α : Type} (torn : ε → Prop) (d : Decoder ε α) : Prop :=
  ∀ is, is.good = true → (d is).EndsIn (fun _ left => left.good = true ∧ left.content = is.content)
    fun e left => torn e ∧ left.failbit = true ∧ left.content = is.content

/-- On a failed stream the decoder throws, and the stream stays failed. -/
def Refuses {ε α : Type} (torn : ε → Prop) (d : Decoder ε α) : Prop :=
  ∀ is, is.failbit = true → ∃ e left, d is = .error e left ∧ torn e ∧ left.failbit = true ∧ left.content = is.content

namespace IStream

theorem good_iff {is : IStream} : is.good = true ↔ is.eofbit = false ∧ is.failbit = false := by
  simp [good]

@[simp] theorem content_seekg (is : IStream) (pos : Int) : (is.seekg pos).content = is.content := by
  unfold seekg
  split_ifs <;> rfl

@[simp] theorem eofbit_seekg (is : IStream) (pos : Int) : (is.seekg pos).eofbit = false := by
  unfold seekg
  split_ifs <;> rfl

/-- Seeking fails in front of the start, and does not repair a stream. -/
theorem failbit_seekg (is : IStream) (pos : Int) : (is.seekg pos).failbit = true ↔ is.failbit = true ∨ pos < 0 := by
  unfold seekg
  split_ifs with failed negative
  · simp [failed]
  · simp [negative]
  · simp [failed, negative]

theorem seekg_eq {is : IStream} {pos : Int} (working : (is.seekg pos).failbit = false) :
    is.seekg pos = ⟨is.content, pos.toNat, false, false⟩ := by
  unfold seekg at working ⊢
  split_ifs at working ⊢ with failed negative
  · rw [failed] at working
    contradiction
  · rw [Bool.not_eq_true] at failed
    rw [failed]

end IStream

namespace Latches
variable {ε α β : Type} {torn : ε → Prop}

theorem pure (a : α) : Latches torn (Pure.pure a : Decoder ε α) := fun _ good => ⟨good, rfl⟩

theorem get : Latches torn (MonadState.get : Decoder ε IStream) := fun _ good => ⟨good, rfl⟩

theorem bind {d : Decoder ε α} {f : α → Decoder ε β} (first : Latches torn d) (second : ∀ a, Latches torn (f a)) :
    Latches torn (d >>= f) := by
  intro is good
  have here := first is good
  cases run : d is with
  | ok a middle =>
    rw [run] at here
    rw [EStateM.bind_ok run]
    refine (second a middle here.1).mono (fun _ left holds => ⟨holds.1, holds.2.trans here.2⟩) fun _ left holds => ?_
    exact ⟨holds.1, holds.2.1, holds.2.2.trans here.2⟩
  | error e left =>
    rw [run] at here
    rw [EStateM.bind_error run]
    exact here

theorem elements {d : Decoder ε α} (each : Latches torn d) (n : Nat) : Latches torn (readElements d n) := by
  induction n with
  | zero => exact pure _
  | succ n ih => exact each.bind fun _ => ih.bind fun _ => pure _

end Latches

theorem Refuses.bind {ε α β : Type} {torn : ε → Prop} {d : Decoder ε α} {f : α → Decoder ε β} (first : Refuses torn d) :
    Refuses torn (d >>= f) := by
  intro is failed
  obtain ⟨e, left, run, holds⟩ := first is failed
  exact ⟨e, left, EStateM.bind_error run, holds⟩
