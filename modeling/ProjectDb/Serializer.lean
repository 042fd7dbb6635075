import ProjectDb.Table
import Mathlib.Order.Defs.Unbundled

namespace ProjectDb

/-- A trivial type: the bytes of its object representation can be copied out
and back in. Integers are little-endian. -/
class Trivial (α : Type) where
  width : Nat
  width_pos : 0 < width
  toBytes : α → List Byte
  toBytes_length : ∀ a, (toBytes a).length = width
  ofBytes : List Byte → α
  ofBytes_toBytes : ∀ a, ofBytes (toBytes a) = a

instance : Trivial Byte where
  width := 1
  width_pos := by decide
  toBytes b := [b]
  toBytes_length _ := rfl
  ofBytes bytes := bytes.headD 0
  ofBytes_toBytes _ := rfl

instance : Trivial UInt32 where
  width := 4
  width_pos := by decide
  toBytes n := leBytes 4 n.toNat
  toBytes_length _ := length_leBytes ..
  ofBytes bytes := UInt32.ofNat (leNat bytes)
  ofBytes_toBytes n := by
    rw [leNat_leBytes (show n.toNat < 256 ^ 4 from n.toNat_lt), UInt32.ofNat_toNat]

instance : Trivial UInt64 where
  width := 8
  width_pos := by decide
  toBytes n := leBytes 8 n.toNat
  toBytes_length _ := length_leBytes ..
  ofBytes bytes := UInt64.ofNat (leNat bytes)
  ofBytes_toBytes n := by
    rw [leNat_leBytes (show n.toNat < 256 ^ 8 from n.toNat_lt), UInt64.ofNat_toNat]

structure SSTableMetaData where
  msSinceEpoch : UInt64
  deriving DecidableEq

/-- How a type satisfies the `Serializable` concept. The key order of a map
is any strict order, as `std::less` of the key type supplies it. -/
inductive Serializable : Type → Type 1
  | trivial {α : Type} [Trivial α] : Serializable α
  | key : Serializable Key
  | value : Serializable Value
  | metaData : Serializable SSTableMetaData
  | pair {α β : Type} (first : Serializable α) (second : Serializable β) : Serializable (α × β)
  | string : Serializable StdString
  | vector {α : Type} (element : Serializable α) : Serializable (List α)
  | map {α β : Type} (lt : α → α → Prop) [DecidableRel lt] [IsStrictOrder α lt]
      (key : Serializable α) (mapped : Serializable β) : Serializable (SortedMap α β lt)

/-- `SerializationWrapper<size_type>` of the size of a container. -/
def serializeSize (size : Nat) : List Byte := Trivial.toBytes (UInt64.ofNat size)

def serializeString (s : StdString) : List Byte :=
  serializeSize s.bytes.length ++ s.bytes.flatMap Trivial.toBytes

/-- The bytes that `SerializationWrapper<T>` writes for a value. -/
def Serializable.serialize : {α : Type} → Serializable α → α → List Byte
  | _, trivial, a => Trivial.toBytes a
  | _, key, k => serializeString k.key
  | _, value, v => Trivial.toBytes v.type ++ serializeString v.value
  | _, metaData, m => Trivial.toBytes m.msSinceEpoch
  | _, pair first second, p => first.serialize p.1 ++ second.serialize p.2
  | _, string, s => serializeString s
  | _, vector element, xs => serializeSize xs.length ++ xs.flatMap element.serialize
  | _, map _ first second, m =>
    serializeSize m.size ++ m.entries.flatMap fun e => first.serialize e.1 ++ second.serialize e.2

def deserializeTrivial (α : Type) [Trivial α] : Decoder Exn α := fun is =>
  match is.read (Trivial.width α) with
  | (some bytes, is) => .ok (Trivial.ofBytes bytes) is
  | (none, is) => .error (.dbException "Invalid stream encountered!") is

/-- The check of the stream after `deserializeImpl` of a user-defined type. -/
def checkDeserialized : Decoder Exn Unit := fun is =>
  if is.failbit then .error (.dbException "Failed to deserialize trivial data!") is else .ok () is

def deserializeString : Decoder Exn StdString := do
  let size ← deserializeTrivial UInt64
  let chars ← readElements (deserializeTrivial Byte) size.toNat
  pure ⟨chars.toList, by rw [chars.toList_length]; exact size.toNat_lt⟩

/-- `DeserializationWrapper<T>`. A map is rebuilt by insertion at its end. -/
def Serializable.deserialize : {α : Type} → Serializable α → Decoder Exn α
  | α, trivial => deserializeTrivial α
  | _, key => do
    let key ← deserializeString
    checkDeserialized
    pure ⟨key⟩
  | _, value => do
    let type ← deserializeTrivial UInt32
    let value ← deserializeString
    checkDeserialized
    pure ⟨type, value⟩
  | _, metaData => do
    let msSinceEpoch ← deserializeTrivial UInt64
    checkDeserialized
    pure ⟨msSinceEpoch⟩
  | _, pair first second => do
    let a ← first.deserialize
    let b ← second.deserialize
    pure (a, b)
  | _, string => deserializeString
  | _, vector element => do
    let size ← deserializeTrivial UInt64
    let xs ← readElements element.deserialize size.toNat
    pure xs.toList
  | _, map _ first second => do
    let size ← deserializeTrivial UInt64
    let es ← readElements (do
      let k ← first.deserialize
      let v ← second.deserialize
      pure (k, v)) size.toNat
    pure (SortedMap.empty.ofEntries es.toList)

/-- Every container inside the value has a size that `size_t` can hold. -/
def Serializable.Fits : {α : Type} → Serializable α → α → Prop
  | _, pair first second, p => first.Fits p.1 ∧ second.Fits p.2
  | _, vector element, xs => xs.length < 2 ^ 64 ∧ ∀ x ∈ xs, element.Fits x
  | _, map _ first second, m => m.size < 2 ^ 64 ∧ ∀ e ∈ m.entries, first.Fits e.1 ∧ second.Fits e.2
  | _, _, _ => True

/-- The entries of a table, as the pairs of its map. -/
def entryType : Serializable (Key × Value) := .pair .key .value

def tableType : Serializable Table := .map (· < ·) .key .value

end ProjectDb
