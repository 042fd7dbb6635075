import ProjectDb.Config
import ProjectDb.Table
import Mathlib.Algebra.BigOperators.Group.List.Basic

namespace ProjectDb

/-- What an entry counts for: its key, its value and the tag of its type. -/
def entrySize (e : Key × Value) : Nat := e.1.key.bytes.length + e.2.value.bytes.length + 4

/-- The sum that `MemTable::needsFlushToDisk` approximates, without bounds. -/
def Table.exactSize (t : Table) : Nat := (t.entries.map entrySize).sum

/-- The 32-bit sum is the remainder of the exact one. -/
theorem foldl_entrySize (es : List (Key × Value)) (size : Nat) :
    (es.foldl (fun size e => (size + (e.1.getApproximateSizeInBytes + e.2.getApproximateSizeInBytes)) % 2 ^ 32) size) %
      2 ^ 32 = (size + (es.map entrySize).sum) % 2 ^ 32 := by
  induction es generalizing size with
  | nil => simp
  | cons e rest ih =>
    rw [List.foldl_cons, ih, List.map_cons, List.sum_cons]
    simp only [entrySize, Key.getApproximateSizeInBytes, Value.getApproximateSizeInBytes]
    omega

theorem foldl_entrySize_lt (es : List (Key × Value)) :
    es.foldl (fun size e => (size + (e.1.getApproximateSizeInBytes + e.2.getApproximateSizeInBytes)) % 2 ^ 32) 0 <
      2 ^ 32 := by
  rcases List.eq_nil_or_concat' es with rfl | ⟨front, last, rfl⟩
  · decide
  · rw [List.foldl_append]
    exact Nat.mod_lt _ (by decide)

theorem Table.needsFlushToDisk_iff (t : Table) (limit : UInt32) :
    t.needsFlushToDisk limit = true ↔ limit.toNat ≤ t.exactSize % 2 ^ 32 := by
  have sum := foldl_entrySize t.entries 0
  rw [Nat.mod_eq_of_lt (foldl_entrySize_lt t.entries), Nat.zero_add] at sum
  rw [needsFlushToDisk, decide_eq_true_eq, sum]
  rfl

/-- The size has passed a multiple of `2 ^ 32` by less than the limit. -/
def WrapsBelow (limit size : Nat) : Prop := ∃ laps, 0 < laps ∧ laps * 2 ^ 32 ≤ size ∧ size < laps * 2 ^ 32 + limit

theorem wrapsBelow_iff {limit size : Nat} (small : limit < 2 ^ 32) :
    WrapsBelow limit size ↔ limit ≤ size ∧ size % 2 ^ 32 < limit := by
  constructor
  · rintro ⟨laps, positive, passed, short⟩
    omega
  · rintro ⟨large, short⟩
    exact ⟨size / 2 ^ 32, by omega, by omega, by omega⟩

theorem Table.exactSize_set {t : Table} {key : Key} (absent : t.find? key = none) (value : Value) :
    (t.set key value).exactSize = t.exactSize + entrySize (key, value) :=
  SortedMap.sum_insertIn entrySize absent

/-- A MemTable needs a flush exactly when its size has reached the limit, but
for the sizes that wrap below it; and only these make a table that needs a
flush stop needing one when a key is added. -/
theorem Table.needsFlushToDisk_exact_iff (t : Table) (limit : UInt32) :
    ((t.needsFlushToDisk limit = true ↔ limit.toNat ≤ t.exactSize) ↔ ¬ WrapsBelow limit.toNat t.exactSize) ∧
      ∀ key value, t.find? key = none → t.needsFlushToDisk limit = true →
        ((t.set key value).needsFlushToDisk limit = true ↔ ¬ WrapsBelow limit.toNat (t.set key value).exactSize) := by
  have small := limit.toNat_lt
  constructor
  · rw [wrapsBelow_iff small, needsFlushToDisk_iff]
    omega
  · intro key value absent needs
    have grown := exactSize_set absent value
    rw [needsFlushToDisk_iff] at needs
    rw [wrapsBelow_iff small, needsFlushToDisk_iff]
    omega

/-- An entry of just `2 ^ 32` bytes is not flushed, whatever the limit. -/
theorem Table.needsFlushToDisk_lap {value : Value} (length : value.value.bytes.length = 2 ^ 32 - 4) {limit : UInt32}
    (positive : 0 < limit.toNat) :
    (Table.set .empty ⟨.empty⟩ value).exactSize = 2 ^ 32 ∧
      ¬ ((Table.set .empty ⟨.empty⟩ value).needsFlushToDisk limit = true ↔
        limit.toNat ≤ (Table.set .empty ⟨.empty⟩ value).exactSize) := by
  have small := limit.toNat_lt
  have size := exactSize_set (SortedMap.find?_empty (⟨.empty⟩ : Key)) value
  have empty : exactSize .empty = 0 := rfl
  have noKey : StdString.empty.bytes.length = 0 := rfl
  simp only [entrySize, length, empty, noKey] at size
  refine ⟨size, ?_⟩
  rw [needsFlushToDisk_iff, size]
  omega

/-- A value of four gibibytes, less the four bytes of its tag. -/
def hugeValue : Value := .ofString ⟨List.replicate (2 ^ 32 - 4) 0, by rw [List.length_replicate]; decide⟩

/-- With the default limit a table of one empty key and that value is not flushed. -/
theorem Table.needsFlushToDisk_wraps :
    ∃ t : Table, t = Table.set .empty ⟨.empty⟩ hugeValue ∧ t.exactSize = 2 ^ 32 ∧
      ¬ (t.needsFlushToDisk Config.default.memTableApproximateMaxSizeInBytes = true ↔
        Config.default.memTableApproximateMaxSizeInBytes.toNat ≤ t.exactSize) :=
  ⟨_, rfl, needsFlushToDisk_lap List.length_replicate (by decide)⟩

end ProjectDb
