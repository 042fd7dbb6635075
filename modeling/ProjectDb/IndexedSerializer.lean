import ProjectDb.Serializer

namespace ProjectDb

/-- `tellp()` of an output stream that has received these bytes. -/
def tellp (os : List Byte) : Int := os.length

/-- `tryBuildIndex` with the state it captures: it is given an entry, the
position, the current block size and whether the entry is the first or last. -/
abbrev IndexBuilder (σ α : Type) := σ → α → Int → Int → Bool → Bool × σ

section Writing
variable {σ α : Type} (element : Serializable α) (tryBuildIndex : IndexBuilder σ α)

/-- The loop of the index-building `SerializationWrapper<SerializableContainer>`. -/
def serializeIndexedLoop (isFirst : Bool) (currPos currBlockSize : Int) :
    List α → List Byte → σ → List Byte × σ
  | [], os, captured => (os, captured)
  | x :: rest, os, captured =>
    let isFirstOrLastEntry := isFirst || rest.isEmpty
    let (indexAdded, captured) := tryBuildIndex captured x currPos currBlockSize isFirstOrLastEntry
    let currBlockSize := if indexAdded then 0 else currBlockSize
    let os := os ++ element.serialize x
    let prevPos := currPos
    let currPos := tellp os
    serializeIndexedLoop false currPos (currBlockSize + (currPos - prevPos)) rest os captured

def serializeIndexed (xs : List α) (os : List Byte) (captured : σ) : List Byte × σ :=
  let os := os ++ serializeSize xs.length
  serializeIndexedLoop element tryBuildIndex true (tellp os) 0 xs os captured

end Writing

section Reading
variable {σ : Type} (tryBuildIndex : IndexBuilder σ (Key × Value))

/-- The loop of the index-building `DeserializationWrapper`, with `remaining`
of `size` entries still to come. The builder sees the last entry of the map. -/
def deserializeIndexedLoop (size : Nat) (currPos currBlockSize : Int) (rtn : Table) :
    (remaining : Nat) → σ → Decoder Exn (Table × σ)
  | 0, captured => pure (rtn, captured)
  | remaining + 1, captured => do
    let i := size - (remaining + 1)
    let e ← entryType.deserialize
    let rtn := rtn.emplace e.1 e.2
    let isFirstOrLastEntry := i = 0 || i = size - 1
    let prevPos := currPos
    let is ← get
    let currPos := is.tellg
    let currBlockSize := currBlockSize + (currPos - prevPos)
    let (indexAdded, captured) :=
      tryBuildIndex captured (rtn.entries.getLastD e) prevPos currBlockSize isFirstOrLastEntry
    deserializeIndexedLoop size currPos (if indexAdded then 0 else currBlockSize) rtn remaining captured

def deserializeIndexed (captured : σ) : Decoder Exn (Table × σ) := do
  let size ← deserializeTrivial UInt64
  let is ← get
  deserializeIndexedLoop tryBuildIndex size.toNat is.tellg 0 .empty size.toNat captured

end Reading

/-- The loop of `DeserializationWrapper::operator()(istream&, start, end)`.
Every entry takes at least one byte, so `fuel` is the number of bytes left. -/
def deserializeRangeLoop (endPos : Int) : (fuel : Nat) → (currPos : Int) → Table → Decoder Exn Table
  | 0, _, rtn => pure rtn
  | fuel + 1, currPos, rtn =>
    if currPos < endPos then do
      let e ← entryType.deserialize
      let is ← get
      deserializeRangeLoop endPos fuel is.tellg (rtn.emplace e.1 e.2)
    else pure rtn

def deserializeRange (startPos endPos : Int) : Decoder Exn Table := do
  modify (·.seekg startPos)
  deserializeRangeLoop endPos (endPos - startPos).toNat startPos .empty

end ProjectDb
