import Mathlib.Data.Nat.Basic
import Mathlib.Data.List.Infix
import Mathlib.Data.Vector.Basic

/-- An octet. Comparison of bytes is unsigned, as `char_traits<char>` has it. -/
abbrev Byte := Fin 256

instance byteCard_neZero : @NeZero Nat Zero.ofOfNat0 256 := ⟨Nat.succ_ne_zero 255⟩

/-- The `w` low bytes of a number, least significant first. -/
def leBytes : Nat → Nat → List Byte
  | 0, _ => []
  | w + 1, n => Fin.ofNat 256 n :: leBytes w (n / 256)

def leNat : List Byte → Nat
  | [] => 0
  | b :: rest => b.val + 256 * leNat rest

@[simp] theorem length_leBytes (w n : Nat) : (leBytes w n).length = w := by
  induction w generalizing n with
  | zero => rfl
  | succ w ih => simp only [leBytes, List.length_cons, ih]

theorem leNat_leBytes {w n : Nat} (fits : n < 256 ^ w) : leNat (leBytes w n) = n := by
  induction w generalizing n with
  | zero => simp only [Nat.pow_zero, Nat.lt_one_iff] at fits; simp [leBytes, leNat, fits]
  | succ w ih =>
    have rest : n / 256 < 256 ^ w := Nat.div_lt_of_lt_mul (by rw [Nat.mul_comm, ← Nat.pow_succ]; exact fits)
    simp only [leBytes, leNat, ih rest, Fin.val_ofNat]
    omega

theorem leNat_lt (bytes : List Byte) : leNat bytes < 256 ^ bytes.length := by
  induction bytes with
  | nil => simp [leNat]
  | cons b rest ih =>
    have low := b.isLt
    simp only [leNat, List.length_cons, Nat.pow_succ]
    omega

theorem leNat_append (low high : List Byte) : leNat (low ++ high) = leNat low + 256 ^ low.length * leNat high := by
  induction low with
  | nil => simp [leNat]
  | cons b low ih =>
    have shift : 256 * (256 ^ low.length * leNat high) = 256 ^ (low.length + 1) * leNat high := by
      rw [Nat.pow_succ, Nat.mul_comm (256 ^ low.length) 256, Nat.mul_assoc]
    rw [List.cons_append, leNat, leNat, ih, List.length_cons, Nat.mul_add, shift, Nat.add_assoc]

theorem leBytes_leNat (bytes : List Byte) : leBytes bytes.length (leNat bytes) = bytes := by
  induction bytes with
  | nil => rfl
  | cons b rest ih =>
    have low := b.isLt
    have head : Fin.ofNat 256 (leNat (b :: rest)) = b := by
      apply Fin.ext
      simp only [leNat, Fin.val_ofNat]
      omega
    have tail : leNat (b :: rest) / 256 = leNat rest := by
      simp only [leNat]
      omega
    rw [List.length_cons, leBytes, head, tail, ih]

/-- An input stream over the bytes of a file: the read position and the two
state bits that reading and seeking look at. -/
structure IStream where
  content : List Byte
  pos : Nat
  eofbit : Bool
  failbit : Bool
  deriving DecidableEq

namespace IStream

def good (is : IStream) : Bool := !is.eofbit && !is.failbit

/-- Reading fewer bytes than asked for sets both state bits; on a stream that
is not good the read fails at once. -/
def read (is : IStream) (n : Nat) : Option (List Byte) × IStream :=
  let left := is.content.drop is.pos
  if is.good then
    if n ≤ left.length then (some (left.take n), { is with pos := is.pos + n })
    else (none, { is with pos := is.pos + left.length, eofbit := true, failbit := true })
  else (none, { is with failbit := true })

/-- The number of bytes from the read position on. -/
def left (is : IStream) : Nat := is.content.length - is.pos

theorem left_read {is rest : IStream} {n : Nat} {bytes : List Byte} (run : is.read n = (some bytes, rest)) :
    rest.left + n = is.left := by
  simp only [read] at run
  split_ifs at run with good enough
  · cases run
    rw [List.length_drop] at enough
    unfold left
    simp only
    omega
  · cases run
  · cases run

/-- The position, or -1 when the stream has failed. -/
def tellg (is : IStream) : Int := if is.good then is.pos else -1

/-- Seeking clears the end-of-file bit and does nothing while the stream has failed. -/
def seekg (is : IStream) (pos : Int) : IStream :=
  if is.failbit then { is with eofbit := false }
  else if pos < 0 then { is with eofbit := false, failbit := true }
  else { is with pos := pos.toNat, eofbit := false }

/-- A good stream that has consumed `before` and has `rest` ahead. -/
def between (before rest : List Byte) : IStream := ⟨before ++ rest, before.length, false, false⟩

@[simp] theorem good_between (before rest : List Byte) : (between before rest).good = true := rfl

@[simp] theorem content_between (before rest : List Byte) :
    (between before rest).content = before ++ rest := rfl

@[simp] theorem tellg_between (before rest : List Byte) :
    (between before rest).tellg = before.length := rfl

theorem seekg_between {content before rest : List Byte} {pos : Nat} {eofbit : Bool}
    (split : content = before ++ rest) :
    seekg ⟨content, pos, eofbit, false⟩ before.length = between before rest := by
  have nonneg : ¬ ((before.length : Int) < 0) := by omega
  simp only [seekg, nonneg, if_false, Bool.false_eq_true, Int.toNat_natCast, split, between]

theorem read_whole (before bytes rest : List Byte) :
    (between before (bytes ++ rest)).read bytes.length =
      (some bytes, between (before ++ bytes) rest) := by
  simp [read, between, good]

theorem read_torn {n : Nat} (before part : List Byte) (short : part.length < n) :
    (between before part).read n = (none, ⟨before ++ part, before.length + part.length, true, true⟩) := by
  simp [read, between, good, Nat.not_le.mpr short]

end IStream

/-- A prefix of two lists in a row ends inside the first one or reaches the second. -/
theorem List.prefix_append_cases {α : Type} {part xs ys : List α} (isPrefix : part <+: xs ++ ys) :
    part <+: xs ∧ part ≠ xs ∨ ∃ more, part = xs ++ more ∧ more <+: ys := by
  rcases List.prefix_or_prefix_of_prefix isPrefix (List.prefix_append xs ys) with short | ⟨more, rfl⟩
  · by_cases same : part = xs
    · exact Or.inr ⟨[], by rw [same, List.append_nil], List.nil_prefix ..⟩
    · exact Or.inl ⟨short, same⟩
  · exact Or.inr ⟨more, rfl, (List.prefix_append_right_inj xs).mp isPrefix⟩

/-- A decoder reads from the stream and may throw; the stream keeps what was
done to it also when an exception leaves the decoder. -/
abbrev Decoder (ε α : Type) := EStateM ε IStream α

theorem EStateM.bind_ok {ε σ α β : Type} {d : EStateM ε σ α} {f : α → EStateM ε σ β} {s t : σ} {a : α}
    (run : d s = .ok a t) : (d >>= f) s = f a t := by
  simp only [bind, EStateM.bind, run]

theorem EStateM.bind_error {ε σ α β : Type} {d : EStateM ε σ α} {f : α → EStateM ε σ β} {s t : σ} {e : ε}
    (run : d s = .error e t) : (d >>= f) s = .error e t := by
  simp only [bind, EStateM.bind, run]

theorem EStateM.bind_eq_ok {ε σ α β : Type} {d : EStateM ε σ α} {f : α → EStateM ε σ β} {s t : σ} {b : β}
    (run : (d >>= f) s = .ok b t) : ∃ a u, d s = .ok a u ∧ f a u = .ok b t := by
  cases first : d s with
  | ok a u => exact ⟨a, u, rfl, by rw [← run, EStateM.bind_ok first]⟩
  | error e u => rw [EStateM.bind_error first] at run; contradiction

theorem EStateM.bind_eq_error {ε σ α β : Type} {d : EStateM ε σ α} {f : α → EStateM ε σ β} {s t : σ} {e : ε}
    (run : (d >>= f) s = .error e t) : d s = .error e t ∨ ∃ a u, d s = .ok a u ∧ f a u = .error e t := by
  cases first : d s with
  | ok a u => exact Or.inr ⟨a, u, rfl, by rw [← run, EStateM.bind_ok first]⟩
  | error e' u =>
    rw [EStateM.bind_error first] at run
    cases run
    exact Or.inl rfl

/-- The decoder turns exactly these bytes into the value wherever they stand
in a stream, and on any proper prefix of them it runs into the end of the
stream and throws one of the `torn` exceptions. -/
structure Reads {ε α : Type} (torn : ε → Prop) (d : Decoder ε α) (bytes : List Byte) (value : α) : Prop where
  whole : ∀ before rest, d (.between before (bytes ++ rest)) = .ok value (.between (before ++ bytes) rest)
  cut : ∀ before part, part <+: bytes → part ≠ bytes →
    ∃ e is, d (.between before part) = .error e is ∧ torn e ∧ is.eofbit = true

namespace Reads
variable {ε α β : Type} {torn : ε → Prop}

theorem pure (value : α) : Reads torn (Pure.pure value : Decoder ε α) [] value where
  whole before rest := by simp [Pure.pure, EStateM.pure]
  cut _ part isPrefix proper := absurd (List.prefix_nil.mp isPrefix) proper

theorem bind {d : Decoder ε α} {f : α → Decoder ε β} {bytes more : List Byte} {a : α} {b : β}
    (first : Reads torn d bytes a) (second : Reads torn (f a) more b) :
    Reads torn (d >>= f) (bytes ++ more) b where
  whole before rest := by
    have run := first.whole before (more ++ rest)
    rw [← List.append_assoc] at run
    rw [EStateM.bind_ok run, second.whole, List.append_assoc]
  cut before part isPrefix proper := by
    rcases List.prefix_append_cases isPrefix with ⟨short, inside⟩ | ⟨tail, rfl, shorter⟩
    · obtain ⟨e, is, run, bad, eof⟩ := first.cut before part short inside
      exact ⟨e, is, EStateM.bind_error run, bad, eof⟩
    · obtain ⟨e, is, run, bad, eof⟩ := second.cut (before ++ bytes) tail shorter
        (fun same => proper (by rw [same]))
      exact ⟨e, is, by rw [EStateM.bind_ok (first.whole before tail)]; exact run, bad, eof⟩

theorem map {d : Decoder ε α} {bytes : List Byte} {a : α} (f : α → β) (first : Reads torn d bytes a) :
    Reads torn (d >>= fun x => Pure.pure (f x)) bytes (f a) := by
  have both := first.bind (f := fun x => Pure.pure (f x)) (pure (f a))
  rwa [List.append_nil] at both

end Reads

/-- Read `n` elements, one after the other. -/
def readElements {ε α : Type} (d : Decoder ε α) : (n : Nat) → Decoder ε (List.Vector α n)
  | 0 => pure List.Vector.nil
  | n + 1 => do
    let x ← d
    let xs ← readElements d n
    pure (x ::ᵥ xs)

theorem Reads.elements {ε α : Type} {torn : ε → Prop} {d : Decoder ε α} {encode : α → List Byte}
    (xs : List α) (each : ∀ x ∈ xs, Reads torn d (encode x) x) :
    Reads torn (readElements d xs.length) (xs.flatMap encode) ⟨xs, rfl⟩ := by
  induction xs with
  | nil => exact .pure _
  | cons x xs ih =>
    have rest := ih (fun y member => each y (List.mem_cons_of_mem _ member))
    exact (each x (List.mem_cons_self ..)).bind (rest.map (x ::ᵥ ·))

/-- A decoder that knows the encodings it accepts: a stream that starts with
none of them ends inside the decoder, which throws one of the `torn` exceptions. -/
def Exhaustive {ε α : Type} (torn : ε → Prop) (d : Decoder ε α) (accepts : List Byte → Prop) : Prop :=
  ∀ before content, (∃ bytes rest, accepts bytes ∧ content = bytes ++ rest) ∨
    ∃ e is, d (.between before content) = .error e is ∧ torn e ∧ is.eofbit = true

namespace Exhaustive
variable {ε α β : Type} {torn : ε → Prop}

theorem nothing {d : Decoder ε α} {accepts : List Byte → Prop} (empty : accepts []) : Exhaustive torn d accepts :=
  fun _ content => Or.inl ⟨[], content, empty, rfl⟩

theorem bind {d : Decoder ε α} {f : α → Decoder ε β} {encode : α → List Byte} {next : α → List Byte → Prop}
    {accepts : List Byte → Prop} (reads : ∀ a, Reads torn d (encode a) a)
    (first : Exhaustive torn d fun bytes => ∃ a, bytes = encode a) (second : ∀ a, Exhaustive torn (f a) (next a))
    (both : ∀ a more, next a more → accepts (encode a ++ more)) : Exhaustive torn (d >>= f) accepts := by
  intro before content
  rcases first before content with ⟨_, left, ⟨a, rfl⟩, rfl⟩ | ⟨e, is, run, bad, eof⟩
  · have here := (reads a).whole before left
    rcases second a (before ++ encode a) left with ⟨more, rest, known, rfl⟩ | ⟨e, is, run, bad, eof⟩
    · exact Or.inl ⟨encode a ++ more, rest, both a more known, (List.append_assoc ..).symm⟩
    · exact Or.inr ⟨e, is, by rw [EStateM.bind_ok here]; exact run, bad, eof⟩
  · exact Or.inr ⟨e, is, EStateM.bind_error run, bad, eof⟩

/-- What comes after the last field takes no bytes. -/
theorem andThen {d : Decoder ε α} {accepts : List Byte → Prop} (first : Exhaustive torn d accepts)
    (f : α → Decoder ε β) : Exhaustive torn (d >>= f) accepts := by
  intro before content
  rcases first before content with found | ⟨e, is, run, bad, eof⟩
  · exact Or.inl found
  · exact Or.inr ⟨e, is, EStateM.bind_error run, bad, eof⟩

theorem elements {d : Decoder ε α} {encode : α → List Byte} (reads : ∀ a, Reads torn d (encode a) a)
    (each : Exhaustive torn d fun bytes => ∃ a, bytes = encode a) (n : Nat) :
    Exhaustive torn (readElements d n) fun bytes => ∃ xs : List.Vector α n, bytes = xs.toList.flatMap encode := by
  induction n with
  | zero => exact nothing ⟨List.Vector.nil, rfl⟩
  | succ n ih =>
    refine each.bind reads (fun a => ih.andThen _) ?_
    rintro a _ ⟨xs, rfl⟩
    exact ⟨a ::ᵥ xs, by simp⟩

end Exhaustive

/-- A decoder that returns a value has taken at least `cost` bytes for it. -/
def Consumes {ε α : Type} (d : Decoder ε α) (cost : α → Nat) : Prop :=
  ∀ is a rest, d is = .ok a rest → rest.left + cost a ≤ is.left

namespace Consumes
variable {ε α β : Type}

theorem pure (a : α) : Consumes (Pure.pure a : Decoder ε α) fun _ => 0 := by
  intro is b rest run
  cases run
  exact Nat.le_refl _

theorem bind {d : Decoder ε α} {f : α → Decoder ε β} {first : α → Nat} {second : α → β → Nat} {cost : β → Nat}
    (here : Consumes d first) (next : ∀ a, Consumes (f a) (second a))
    (total : ∀ a b, cost b ≤ first a + second a b) : Consumes (d >>= f) cost := by
  intro is b rest run
  cases part : d is with
  | error e middle => rw [EStateM.bind_error part] at run; contradiction
  | ok a middle =>
    rw [EStateM.bind_ok part] at run
    have one := here is a middle part
    have two := next a middle b rest run
    have sum := total a b
    omega

theorem elements {d : Decoder ε α} {cost : Nat} (each : Consumes d fun _ => cost) (n : Nat) :
    Consumes (readElements d n) fun _ => n * cost := by
  induction n with
  | zero =>
    intro is xs rest run
    cases run
    simp
  | succ n ih =>
    refine each.bind (fun a => ih.bind (fun xs => pure (a ::ᵥ xs)) fun _ _ => Nat.le_refl _) ?_
    intro _ _
    rw [Nat.succ_mul]
    omega

end Consumes
