import ProjectDb.FileName
import ProjectDb.Foundation.Numerals

namespace ProjectDb

open Numerals

/-- The first group of `regex_search` for `project_db_(\d+).*`: the digits behind
the first `project_db_` that has some. -/
def searchCounter : List Char → Option (List Char)
  | [] => none
  | c :: rest =>
    let digits := if "project_db_".toList <+: c :: rest then ((c :: rest).drop 11).takeWhile Char.isDigit else []
    if digits ≠ [] then some digits else searchCounter rest

/-- `getCounterFromFileName` on the text of a file name. The digits that are
found are never refused as an argument. -/
def getCounterFromText (fileName : String) : Except Exn Int :=
  match searchCounter fileName.toList with
  | none => .error (.dbException ("Failed to extract counter from fileName: " ++ fileName))
  | some digits =>
    match stoi digits with
    | .ok counter => .ok counter
    | .error .outOfRange => .error .outOfRange
    | .error .invalidArgument => .error .undefined

namespace FileName

theorem text_toList (name : FileName) :
    name.text.toList = "project_db_".toList ++ (Nat.toDigits 10 name.counter ++ (name.exts.flatMap fun e => e.text.toList)) := by
  rw [text, String.toList_append, String.toList_append, String.toList_join, List.append_assoc, Nat.toString_eq_repr,
    Nat.toList_repr, List.flatMap_map]

theorem digits_isDigit (n : Nat) : ∀ c ∈ Nat.toDigits 10 n, c.isDigit = true := fun _ member =>
  Nat.isDigit_of_mem_toDigits (by decide) (by decide) member

/-- The extensions do not begin with a digit. -/
theorem takeWhile_exts (exts : List FileExt) : (exts.flatMap fun e => e.text.toList).takeWhile Char.isDigit = [] := by
  cases exts with
  | nil => rfl
  | cons e exts => cases e <;> rfl

theorem searchCounter_text (name : FileName) : searchCounter name.text.toList = some (Nat.toDigits 10 name.counter) := by
  have start : name.text.toList = 'p' :: name.text.toList.tail := by rw [text_toList]; rfl
  have front : "project_db_".toList <+: name.text.toList := by
    rw [text_toList]
    exact List.prefix_append _ _
  have digits : (name.text.toList.drop 11).takeWhile Char.isDigit = Nat.toDigits 10 name.counter := by
    rw [text_toList, List.drop_left' (by decide), List.takeWhile_append_of_pos (digits_isDigit _), takeWhile_exts,
      List.append_nil]
  rw [start] at front digits ⊢
  rw [searchCounter, if_pos front, digits]
  exact if_pos Nat.toDigits_ne_nil

/-- Names of one text have one counter. -/
theorem counter_of_text {a b : FileName} (same : a.text = b.text) : a.counter = b.counter := by
  have digits := searchCounter_text a
  rw [same, searchCounter_text] at digits
  rw [← magnitude_toDigits a.counter, ← magnitude_toDigits b.counter, Option.some.inj digits]

/-- Reading the counter of a name gives it back when it fits an `int`. -/
theorem getCounterFromText_text (name : FileName) :
    getCounterFromText name.text =
      if name.counter < 2 ^ 31 then .ok (name.counter : Int) else .error .outOfRange := by
  have number := stoi_digits (digits_isDigit name.counter) Nat.toDigits_ne_nil
  rw [magnitude_toDigits] at number
  simp only [getCounterFromText, searchCounter_text, number]
  split_ifs <;> rfl

theorem getCounterFromText_iff (name : FileName) :
    getCounterFromText name.text = .ok (name.counter : Int) ↔ name.counter < 2 ^ 31 := by
  rw [getCounterFromText_text]
  split_ifs with small
  · exact iff_of_true rfl small
  · exact iff_of_false (by simp) small

end FileName

/-- The text agrees with the name that it is the text of. -/
theorem getCounterFromFileName_text (name : FileName) :
    getCounterFromText name.text = (getCounterFromFileName name).map Int.ofNat := by
  rw [name.getCounterFromText_text, getCounterFromFileName]
  split_ifs <;> rfl

end ProjectDb
