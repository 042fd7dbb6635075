import ProjectDb.SerializerRoundTrip
import ProjectDb.FileName

namespace ProjectDb

/-- A write to the database. -/
inductive Operation
  | set (key value : StdString)
  | remove (key : StdString)
  deriving DecidableEq

namespace Operation

def key : Operation → Key
  | set key _ => ⟨key⟩
  | remove key => ⟨key⟩

/-- What the operation leaves under its key. -/
def written : Operation → Value
  | set _ value => .ofString value
  | remove _ => .tombstone

def isRemove : Operation → Bool
  | set .. => false
  | remove _ => true

theorem eq_remove {op : Operation} (removes : op.isRemove = true) : ∃ key, op = remove key := by
  cases op with
  | set key value => contradiction
  | remove key => exact ⟨key, rfl⟩

/-- What `MemTable::set` and `MemTable::remove` do to the table. -/
def apply (t : Table) : Operation → Table
  | set key value => t.set ⟨key⟩ (.ofString value)
  | remove key => t.remove ⟨key⟩

@[simp] theorem find?_apply (t : Table) (op : Operation) (key : Key) :
    (op.apply t).find? key = if key = op.key then some op.written else t.find? key := by
  cases op <;> exact SortedMap.find?_insert t _ key _

end Operation

/-- The MemTable after some operations, oldest first. -/
def replay (ops : List Operation) : Table := ops.foldl Operation.apply .empty

theorem replay_append (ops : List Operation) (op : Operation) : replay (ops ++ [op]) = op.apply (replay ops) := by
  simp [replay]

namespace DbTransactionType
/-! An enumeration over `int`. -/

def get : UInt32 := 0
def set : UInt32 := 1
def remove : UInt32 := 2

end DbTransactionType

/-- The bytes that `TransactionLogWritter::write` appends for a call of
`MemTableQueue::set` or `MemTableQueue::remove`; both pass their strings. -/
def TransactionLogWritter.record : Operation → List Byte
  | .set key value => Trivial.toBytes DbTransactionType.set ++ (serializeString key ++ serializeString value)
  | .remove key => Trivial.toBytes DbTransactionType.remove ++ serializeString key

namespace TransactionLogLoader

/-- One pass of the loop of `load`. -/
def loadRecord (transactionLogFileName : FileName) (rtn : Table) : Decoder Exn Table := do
  let transactionType ← deserializeTrivial UInt32
  if transactionType = DbTransactionType.set then
    let key ← Serializable.key.deserialize
    let value ← Serializable.value.deserialize
    pure (rtn.set key value)
  else if transactionType = DbTransactionType.remove then
    let key ← Serializable.key.deserialize
    pure (rtn.remove key)
  else
    throw (.dbException ("Found unsupported transaction type: " ++ toString transactionType.toInt32 ++
      " while parsing transaction log file: " ++ transactionLogFileName.text))

/-- The loop of `load`: a `DbException` at the end of the file ends it. Every
record takes at least one byte, so `fuel` is one more than the bytes of the file. -/
def loadLoop (transactionLogFileName : FileName) : (fuel : Nat) → Table → IStream → Except Exn Table
  | 0, rtn, _ => .ok rtn
  | fuel + 1, rtn, ifs =>
    match loadRecord transactionLogFileName rtn ifs with
    | .ok rtn ifs => loadLoop transactionLogFileName fuel rtn ifs
    | .error e ifs => if e.isDbException && ifs.eofbit then .ok rtn else .error e

def load (transactionLogFileName : FileName) (ifs : IStream) : Except Exn Table :=
  loadLoop transactionLogFileName (ifs.content.length + 1) .empty ifs

end TransactionLogLoader

/-- A log format: what the writer appends for an operation, and what the
loader makes of the stream on a log file. -/
structure LogFormat where
  record : Operation → List Byte
  load : FileName → IStream → Except Exn Table

/-- The format of the repository. -/
def transactionLog : LogFormat := ⟨TransactionLogWritter.record, TransactionLogLoader.load⟩

/-- The log file after some operations on one MemTable. -/
def LogFormat.file (fmt : LogFormat) (ops : List Operation) : List Byte := ops.flatMap fmt.record

end ProjectDb
