import ProjectDb.Foundation.SortedMap
import ProjectDb.Foundation.ByteStream
import Mathlib.Data.List.Lex
import Mathlib.Order.Fin.Basic

namespace ProjectDb

/-- Exceptions that leave a function of the database, and `undefined` for an
access that C++ gives no meaning to. -/
inductive Exn
  | dbException (msg : String)
  | outOfRange
  | filesystemError
  | futureError
  | undefined
  deriving DecidableEq, Repr

def Exn.isDbException : Exn → Bool
  | dbException _ => true
  | _ => false

/-- A `std::string`, whose `size()` is a 64-bit `size_t`. -/
structure StdString where
  bytes : List Byte
  size_lt : bytes.length < 2 ^ 64

namespace StdString

theorem bytes_injective : Function.Injective bytes := by
  intro a b same
  cases a; cases b; cases same; rfl

instance : LinearOrder StdString := LinearOrder.lift' bytes bytes_injective

def empty : StdString := ⟨[], by decide⟩

end StdString

structure Key where
  key : StdString

/-- `std::less<Key>` compares the strings of the keys. -/
instance : LinearOrder Key := LinearOrder.lift' Key.key fun a b same => by
  cases a; cases b; cases same; rfl

instance : IsTrans Key (· < ·) := ⟨fun _ _ _ => lt_trans⟩

/-- `m_type` is an enumeration over `int`; decoding stores whatever four bytes
it finds there. -/
structure Value where
  type : UInt32
  value : StdString
  deriving DecidableEq

namespace Value

def stringValue : UInt32 := 0
def tombstoneValue : UInt32 := 1

def tombstone : Value := ⟨tombstoneValue, .empty⟩

def ofString (value : StdString) : Value := ⟨stringValue, value⟩

def isTombstoneValue (v : Value) : Bool := v.type = tombstoneValue

def underlyingValue (v : Value) : Option StdString :=
  if v.isTombstoneValue then none else some v.value

def getApproximateSizeInBytes (v : Value) : Nat := (4 + v.value.bytes.length) % 2 ^ 32

@[simp] theorem isTombstoneValue_tombstone : tombstone.isTombstoneValue = true := rfl

@[simp] theorem isTombstoneValue_ofString (s : StdString) : (ofString s).isTombstoneValue = false := rfl

@[simp] theorem underlyingValue_tombstone : tombstone.underlyingValue = none := rfl

@[simp] theorem underlyingValue_ofString (s : StdString) : (ofString s).underlyingValue = some s := rfl

theorem underlyingValue_eq_none {v : Value} : v.underlyingValue = none ↔ v.isTombstoneValue = true := by
  rw [underlyingValue]
  split_ifs with dead <;> simp [dead]

end Value

def Key.getApproximateSizeInBytes (k : Key) : Nat := k.key.bytes.length % 2 ^ 32

/-- `Table::value_type`, a `map<Key, Value>`. -/
abbrev Table := SortedMap Key Value (· < ·)

/-- `MemTable::set` on the table it points to. -/
def Table.set (t : Table) (key : Key) (value : Value) : Table := t.insert key value

/-- `MemTable::remove` sets a tombstone and never erases. -/
def Table.remove (t : Table) (key : Key) : Table := t.set key .tombstone

/-- `MemTable::needsFlushToDisk`, summing in 32-bit unsigned arithmetic. -/
def Table.needsFlushToDisk (t : Table) (memTableApproximateMaxSizeInBytes : UInt32) : Bool :=
  let currSizeInBytes := t.entries.foldl (fun size e =>
    (size + (e.1.getApproximateSizeInBytes + e.2.getApproximateSizeInBytes)) % 2 ^ 32) 0
  memTableApproximateMaxSizeInBytes.toNat ≤ currSizeInBytes

end ProjectDb
