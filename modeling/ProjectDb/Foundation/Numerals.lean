import Mathlib.Data.List.TakeWhile
import Mathlib.Order.Defs.LinearOrder
import Mathlib.Algebra.Ring.Int.Defs
import Mathlib.Algebra.GroupWithZero.Nat

/-! The conversions of the C++ library from strings of decimal digits, with
64-bit `long` and 32-bit `int`. -/

namespace Numerals

/-- The exceptions that the conversions throw. -/
inductive ConversionError
  | invalidArgument | outOfRange
  deriving DecidableEq, Repr

def isSpace (c : Char) : Bool := c = ' ' || '\t'.toNat ≤ c.toNat && c.toNat ≤ '\r'.toNat

/-- The sign and the digits that are read from the front of a string. -/
def scan (text : List Char) : Bool × List Char :=
  match text.dropWhile isSpace with
  | '-' :: rest => (true, rest.takeWhile Char.isDigit)
  | '+' :: rest => (false, rest.takeWhile Char.isDigit)
  | rest => (false, rest.takeWhile Char.isDigit)

def magnitude (digits : List Char) : Nat := Nat.ofDigitChars 10 digits 0

/-- A minus sign negates the number as an `unsigned long`. -/
def stoul (text : List Char) : Except ConversionError Nat :=
  let (negative, digits) := scan text
  if digits = [] then .error .invalidArgument
  else if 2 ^ 64 ≤ magnitude digits then .error .outOfRange
  else .ok (if negative then (2 ^ 64 - magnitude digits) % 2 ^ 64 else magnitude digits)

def stoi (text : List Char) : Except ConversionError Int :=
  let (negative, digits) := scan text
  if digits = [] then .error .invalidArgument
  else
    let value : Int := if negative then -(magnitude digits : Int) else magnitude digits
    if value < -2 ^ 31 ∨ 2 ^ 31 ≤ value then .error .outOfRange else .ok value

theorem isSpace_digit {c : Char} (digit : c.isDigit = true) : isSpace c = false := by
  simp only [Char.isDigit, Bool.and_eq_true, decide_eq_true_eq, UInt32.le_iff_toNat_le] at digit
  have low : 48 ≤ c.toNat := digit.1
  simp only [isSpace, Bool.or_eq_false_iff, decide_eq_false_iff_not, Bool.and_eq_false_iff, not_le]
  refine ⟨?_, Or.inr ?_⟩
  · rintro rfl
    exact absurd low (by decide)
  · exact lt_of_lt_of_le (by decide) low

theorem scan_digits {digits : List Char} (all : ∀ c ∈ digits, c.isDigit = true) (some : digits ≠ []) :
    scan digits = (false, digits) := by
  obtain ⟨c, rest, rfl⟩ := List.exists_cons_of_ne_nil some
  have first := all c (List.mem_cons_self ..)
  have whole : (c :: rest).takeWhile Char.isDigit = c :: rest := List.takeWhile_eq_self_iff.mpr all
  have start : (c :: rest).dropWhile isSpace = c :: rest := by
    rw [List.dropWhile_cons_of_neg (by simp [isSpace_digit first])]
  unfold scan
  rw [start]
  split
  · rename_i same
    cases same
    exact absurd first (by decide)
  · rename_i same
    cases same
    exact absurd first (by decide)
  · rw [whole]

/-- Digits alone are read as the number that they are. -/
theorem stoul_digits {digits : List Char} (all : ∀ c ∈ digits, c.isDigit = true) (some : digits ≠ [])
    (small : magnitude digits < 2 ^ 64) : stoul digits = .ok (magnitude digits) := by
  simp only [stoul, scan_digits all some, if_neg some, if_neg (not_le.mpr small), Bool.false_eq_true, if_false]

theorem stoi_digits {digits : List Char} (all : ∀ c ∈ digits, c.isDigit = true) (some : digits ≠ []) :
    stoi digits = if magnitude digits < 2 ^ 31 then .ok (magnitude digits : Int) else .error .outOfRange := by
  simp only [stoi, scan_digits all some, if_neg some, Bool.false_eq_true, if_false]
  split_ifs
  · omega
  · rfl
  · rfl
  · omega

theorem magnitude_toDigits (n : Nat) : magnitude (Nat.toDigits 10 n) = n := Nat.ofDigitChars_ten_toDigits

end Numerals
