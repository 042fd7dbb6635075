import ProjectDb.TransactionLog
import ProjectDb.IndexedLoops

namespace ProjectDb

section Records

/-- A record of the log: its tag, a length-prefixed key and, for a set, a serialized `Value`. -/
inductive LogRecord
  | set (key : Key) (value : Value)
  | remove (key : Key)

namespace LogRecord

def bytes : LogRecord → List Byte
  | set key value =>
    Trivial.toBytes DbTransactionType.set ++ (Serializable.key.serialize key ++ Serializable.value.serialize value)
  | remove key => Trivial.toBytes DbTransactionType.remove ++ Serializable.key.serialize key

def apply (t : Table) : LogRecord → Table
  | set key value => t.set key value
  | remove key => t.remove key

end LogRecord

def recordsBytes (rs : List LogRecord) : List Byte := rs.flatMap LogRecord.bytes

/-- The MemTable after some records, oldest first. -/
def replayRecords (rs : List LogRecord) : Table := rs.foldl LogRecord.apply .empty

@[simp] theorem recordsBytes_nil : recordsBytes [] = [] := rfl

@[simp] theorem recordsBytes_cons (r : LogRecord) (rs : List LogRecord) :
    recordsBytes (r :: rs) = r.bytes ++ recordsBytes rs := rfl

@[simp] theorem recordsBytes_append (rs more : List LogRecord) :
    recordsBytes (rs ++ more) = recordsBytes rs ++ recordsBytes more := List.flatMap_append

theorem replayRecords_append (rs : List LogRecord) (r : LogRecord) :
    replayRecords (rs ++ [r]) = r.apply (replayRecords rs) := by
  simp [replayRecords]

theorem LogRecord.four_le (r : LogRecord) : 4 ≤ r.bytes.length := by
  cases r <;> simp [LogRecord.bytes, Trivial.toBytes, length_leBytes]

theorem length_recordsBytes (rs : List LogRecord) : 4 * rs.length ≤ (recordsBytes rs).length := by
  induction rs with
  | nil => simp
  | cons r rs ih =>
    have four := r.four_le
    simp only [recordsBytes_cons, List.length_append, List.length_cons]
    omega

/-- The records of some removes. -/
theorem file_removes {ops : List Operation} (removes : ∀ op ∈ ops, op.isRemove = true) :
    transactionLog.file ops = recordsBytes (ops.map fun op => .remove op.key) ∧
      replay ops = replayRecords (ops.map fun op => .remove op.key) := by
  induction ops using List.reverseRecOn with
  | nil => exact ⟨rfl, rfl⟩
  | append_singleton ops op ih =>
    obtain ⟨bytes, table⟩ := ih fun op member => removes op (List.mem_append_left _ member)
    obtain ⟨key, rfl⟩ := Operation.eq_remove (removes op (List.mem_append_right _ (List.mem_singleton_self _)))
    constructor
    · rw [LogFormat.file, List.flatMap_append, ← LogFormat.file, bytes, List.map_append, recordsBytes_append]
      rfl
    · rw [replay_append, table, List.map_append, List.map_singleton, replayRecords_append]
      rfl

end Records

section Consumption

theorem deserializeTrivial_consumes {α : Type} [Trivial α] :
    Consumes (deserializeTrivial α) fun _ => Trivial.width α := by
  intro is a rest run
  unfold deserializeTrivial at run
  rcases read : is.read (Trivial.width α) with ⟨bytes | bytes, stream⟩
  · rw [read] at run
    contradiction
  · rw [read] at run
    cases run
    exact (IStream.left_read read).le

theorem checkDeserialized_consumes : Consumes checkDeserialized fun _ => 0 := by
  intro is _ rest run
  unfold checkDeserialized at run
  split at run
  · contradiction
  · cases run
    exact Nat.le_refl _

theorem deserializeString_consumes : Consumes deserializeString fun s => 8 + s.bytes.length := by
  intro is s rest run
  unfold deserializeString at run
  cases size : deserializeTrivial UInt64 is with
  | error e middle => rw [EStateM.bind_error size] at run; contradiction
  | ok n middle =>
    rw [EStateM.bind_ok size] at run
    cases chars : readElements (deserializeTrivial Byte) n.toNat middle with
    | error e last => rw [EStateM.bind_error chars] at run; contradiction
    | ok xs last =>
      rw [EStateM.bind_ok chars] at run
      have eight : middle.left + 8 ≤ is.left := deserializeTrivial_consumes is n middle size
      have each : last.left + n.toNat * 1 ≤ middle.left :=
        deserializeTrivial_consumes.elements n.toNat middle xs last chars
      have length := xs.toList_length
      cases run
      simp only
      omega

theorem key_consumes : Consumes Serializable.key.deserialize fun _ => 8 := by
  refine deserializeString_consumes.bind
    (fun s => checkDeserialized_consumes.bind (fun _ => .pure (⟨s⟩ : Key)) fun _ _ => Nat.le_refl 0) ?_
  intro _ _
  omega

/-- Whatever bytes a value is decoded from, they outnumber its string by twelve. -/
theorem value_consumes : Consumes Serializable.value.deserialize fun v => 12 + v.value.bytes.length := by
  intro is v rest run
  unfold Serializable.deserialize at run
  cases type : deserializeTrivial UInt32 is with
  | error e middle => rw [EStateM.bind_error type] at run; contradiction
  | ok n middle =>
    rw [EStateM.bind_ok type] at run
    cases chars : deserializeString middle with
    | error e last => rw [EStateM.bind_error chars] at run; contradiction
    | ok s last =>
      rw [EStateM.bind_ok chars] at run
      cases check : checkDeserialized last with
      | error e stream => rw [EStateM.bind_error check] at run; contradiction
      | ok _ stream =>
        rw [EStateM.bind_ok check] at run
        cases run
        have four : middle.left + 4 ≤ is.left := deserializeTrivial_consumes is n middle type
        have string := deserializeString_consumes middle s last chars
        have same := checkDeserialized_consumes last () _ check
        simp only at *
        omega

end Consumption

namespace TransactionLogLoader
variable (name : FileName)

/-- What one pass of the loop does: it sets a value that took more bytes than
its string has, or it removes a key. -/
theorem loadRecord_cases {rtn next : Table} {ifs rest : IStream} (run : loadRecord name rtn ifs = .ok next rest) :
    rest.left ≤ ifs.left ∧ ((∃ key value, next = rtn.set key value ∧ 12 + value.value.bytes.length ≤ ifs.left) ∨
      ∃ key, next = rtn.remove key) := by
  unfold loadRecord at run
  cases tag : deserializeTrivial UInt32 ifs with
  | error e middle => rw [EStateM.bind_error tag] at run; contradiction
  | ok n middle =>
    rw [EStateM.bind_ok tag] at run
    have four := deserializeTrivial_consumes ifs n middle tag
    split_ifs at run with isSet isRemove
    · cases keyRead : Serializable.key.deserialize middle with
      | error e last => rw [EStateM.bind_error keyRead] at run; contradiction
      | ok key last =>
        rw [EStateM.bind_ok keyRead] at run
        have eight := key_consumes middle key last keyRead
        cases valueRead : Serializable.value.deserialize last with
        | error e stream => rw [EStateM.bind_error valueRead] at run; contradiction
        | ok value stream =>
          rw [EStateM.bind_ok valueRead] at run
          have twelve : stream.left + (12 + value.value.bytes.length) ≤ last.left :=
            value_consumes last value stream valueRead
          cases run
          exact ⟨by omega, Or.inl ⟨key, value, rfl, by omega⟩⟩
    · cases keyRead : Serializable.key.deserialize middle with
      | error e last => rw [EStateM.bind_error keyRead] at run; contradiction
      | ok key last =>
        rw [EStateM.bind_ok keyRead] at run
        have eight := key_consumes middle key last keyRead
        cases run
        exact ⟨by omega, Or.inr ⟨key, rfl⟩⟩
    · contradiction

/-- The table holds nothing but tombstones and values that fit into the bound. -/
def Within (bound : Nat) (t : Table) : Prop :=
  ∀ key value, t.find? key = some value → value = .tombstone ∨ 12 + value.value.bytes.length ≤ bound

theorem Within.remove {bound : Nat} {t : Table} (within : Within bound t) (key : Key) :
    Within bound (t.remove key) := by
  intro k v found
  rw [Table.remove, Table.set, SortedMap.find?_insert] at found
  split_ifs at found with same
  · exact Or.inl (Option.some.inj found).symm
  · exact within k v found

theorem loadLoop_within {bound : Nat} (fuel : Nat) {rtn t : Table} {ifs : IStream} (within : Within bound rtn)
    (left : ifs.left ≤ bound) (run : loadLoop name fuel rtn ifs = .ok t) : Within bound t := by
  induction fuel generalizing rtn ifs with
  | zero => cases run; exact within
  | succ fuel ih =>
    unfold loadLoop at run
    cases step : loadRecord name rtn ifs with
    | error e rest =>
      rw [step] at run
      simp only at run
      split_ifs at run
      cases run
      exact within
    | ok next rest =>
      rw [step] at run
      obtain ⟨fewer, ⟨key, value, rfl, fits⟩ | ⟨key, rfl⟩⟩ := loadRecord_cases name step
      · refine ih ?_ (fewer.trans left) run
        intro k v found
        rw [Table.set, SortedMap.find?_insert] at found
        split_ifs at found with same
        · cases found
          exact Or.inr (fits.trans left)
        · exact within k v found
      · exact ih (within.remove key) (fewer.trans left) run

/-- A complete record is read back, and a cut one ends the stream. -/
theorem loadRecord_reads (rtn : Table) (r : LogRecord) : ReadsBack (loadRecord name rtn) r.bytes (r.apply rtn) := by
  cases r with
  | set key value =>
    refine (deserializeTrivial_reads DbTransactionType.set).bind ?_
    rw [if_pos rfl]
    exact (Serializable.key.reads True.intro).bind ((Serializable.value.reads True.intro).map (rtn.set key))
  | remove key =>
    refine (deserializeTrivial_reads DbTransactionType.remove).bind ?_
    rw [if_neg (by decide), if_pos rfl]
    exact (Serializable.key.reads True.intro).map rtn.remove

/-- The loop over complete records, up to what stands behind them. -/
theorem loadLoop_records (rs : List LogRecord) (fuel : Nat) (rtn : Table) (before rest : List Byte) :
    loadLoop name (rs.length + fuel) rtn (.between before (recordsBytes rs ++ rest)) =
      loadLoop name fuel (rs.foldl LogRecord.apply rtn) (.between (before ++ recordsBytes rs) rest) := by
  induction rs generalizing rtn before with
  | nil => simp
  | cons r rs ih =>
    have step := (loadRecord_reads name rtn r).whole before (recordsBytes rs ++ rest)
    have later := ih (r.apply rtn) (before ++ r.bytes)
    rw [List.length_cons, Nat.succ_add, loadLoop, recordsBytes_cons, List.append_assoc, step]
    simp only
    rw [later, List.append_assoc]
    rfl

theorem loadLoop_removes {ops : List Operation} (removes : ∀ op ∈ ops, op.isRemove = true) (fuel : Nat)
    (before rest : List Byte) :
    loadLoop name (ops.length + fuel) .empty (.between before (transactionLog.file ops ++ rest)) =
      loadLoop name fuel (replay ops) (.between (before ++ transactionLog.file ops) rest) := by
  obtain ⟨bytes, table⟩ := file_removes removes
  have loop := loadLoop_records name (ops.map fun op => .remove op.key) fuel .empty before rest
  rw [List.length_map, ← bytes] at loop
  rw [loop, table, replayRecords]

/-- The record of a set: after its key the loader decodes the value from the
bytes of the string alone. -/
theorem loadRecord_set (rtn : Table) (key value : StdString) (before : List Byte) :
    ∃ ifs : IStream, ifs.left = 8 + value.bytes.length ∧
      loadRecord name rtn (.between before (TransactionLogWritter.record (.set key value))) =
        (do let value ← Serializable.value.deserialize; pure (rtn.set ⟨key⟩ value) : Decoder Exn Table) ifs := by
  refine ⟨.between (before ++ Trivial.toBytes DbTransactionType.set ++ serializeString key) (serializeString value),
    ?_, ?_⟩
  · have length := length_serializeString value
    simp only [IStream.left, IStream.between, List.length_append]
    omega
  · have tag := (deserializeTrivial_reads DbTransactionType.set).whole before
      (serializeString key ++ serializeString value)
    have keyRead := (Serializable.key.reads (a := ⟨key⟩) True.intro).whole
      (before ++ Trivial.toBytes DbTransactionType.set) (serializeString value)
    rw [loadRecord, TransactionLogWritter.record, EStateM.bind_ok tag, if_pos rfl]
    exact EStateM.bind_ok keyRead

theorem loadLoop_end (fuel : Nat) (rtn : Table) (before : List Byte) :
    loadLoop name fuel rtn (.between before []) = .ok rtn := by
  cases fuel with
  | zero => rfl
  | succ fuel => simp [loadLoop, loadRecord, deserializeTrivial, IStream.read, IStream.between, IStream.good,
      bind, EStateM.bind, Exn.isDbException, Trivial.width]

theorem four_le_record (op : Operation) : 4 ≤ (transactionLog.record op).length := by
  cases op <;> simp [transactionLog, TransactionLogWritter.record, Trivial.toBytes, length_leBytes]

theorem length_file (ops : List Operation) : ops.length ≤ (transactionLog.file ops).length := by
  induction ops with
  | nil => simp
  | cons op ops ih =>
    have four := four_le_record op
    simp only [LogFormat.file, List.flatMap_cons, List.length_append, List.length_cons] at ih ⊢
    omega

/-- A log of removes loads back. -/
theorem load_removes {ops : List Operation} (removes : ∀ op ∈ ops, op.isRemove = true) :
    load name (.between [] (transactionLog.file ops)) = .ok (replay ops) := by
  have count := length_file ops
  have loop := loadLoop_removes name removes ((transactionLog.file ops).length - ops.length + 1) [] []
  rw [loadLoop_end, List.append_nil] at loop
  rw [load, IStream.content_between, List.nil_append, ← loop]
  congr 1
  omega

theorem within_removes {ops : List Operation} (removes : ∀ op ∈ ops, op.isRemove = true) (bound : Nat) :
    Within bound (replay ops) := by
  induction ops using List.reverseRecOn with
  | nil => simp [Within, replay]
  | append_singleton ops op ih =>
    have earlier := ih fun op member => removes op (List.mem_append_left _ member)
    obtain ⟨key, rfl⟩ := Operation.eq_remove (removes op (List.mem_append_right _ (List.mem_singleton_self _)))
    rw [replay_append]
    exact earlier.remove ⟨key⟩

/-- The first set of a log does not load back: the loader takes the length of
the value for its type and part of the length, so that too few bytes are left
for a value as long as the one written. -/
theorem load_set_ne (ops : List Operation) (removes : ∀ op ∈ ops, op.isRemove = true) (key value : StdString) :
    load name (.between [] (transactionLog.file (ops ++ [.set key value]))) ≠
      .ok (replay (ops ++ [.set key value])) := by
  intro same
  have short : ∀ t : Table, Within (8 + value.bytes.length) t → t ≠ replay (ops ++ [.set key value]) := by
    intro t within equal
    have found : t.find? ⟨key⟩ = some (.ofString value) := by
      rw [equal, replay_append, Operation.find?_apply]
      exact if_pos rfl
    rcases within _ _ found with tombstone | fits
    · have types : Value.stringValue = Value.tombstoneValue := congrArg Value.type tombstone
      exact absurd types (by decide)
    · simp only [Value.ofString] at fits
      omega
  have bytes : transactionLog.file (ops ++ [.set key value]) =
      transactionLog.file ops ++ TransactionLogWritter.record (.set key value) := by
    simp [LogFormat.file, transactionLog]
  have count := length_file ops
  obtain ⟨fuel, enough⟩ : ∃ fuel, (transactionLog.file (ops ++ [.set key value])).length + 1 =
      ops.length + (fuel + 1) := by
    refine ⟨(transactionLog.file (ops ++ [.set key value])).length - ops.length, ?_⟩
    rw [bytes, List.length_append]
    omega
  rw [load, IStream.content_between, List.nil_append, enough, bytes, loadLoop_removes name removes, loadLoop] at same
  have within : Within (8 + value.bytes.length) (replay ops) := within_removes removes _
  obtain ⟨ifs, left, step⟩ := loadRecord_set name (replay ops) key value ([] ++ transactionLog.file ops)
  rw [step] at same
  cases valueRead : Serializable.value.deserialize ifs with
  | error e rest =>
    rw [EStateM.bind_error valueRead] at same
    simp only at same
    split_ifs at same
    exact short (replay ops) within (Except.ok.inj same)
  | ok decoded rest =>
    have twelve : rest.left + (12 + decoded.value.bytes.length) ≤ ifs.left :=
      value_consumes ifs decoded rest valueRead
    rw [EStateM.bind_ok valueRead] at same
    refine short _ (loadLoop_within name fuel ?_ (by omega) same) rfl
    intro k v found
    rw [Table.set, SortedMap.find?_insert] at found
    split_ifs at found with equal
    · cases found
      exact Or.inr (by omega)
    · exact within k v found

/-- The log of a run loads back after every one of its operations exactly when
all of them are removes. -/
theorem load_iff_removes (ops : List Operation) :
    (∀ done, done <+: ops → load name (.between [] (transactionLog.file done)) = .ok (replay done)) ↔
      ∀ op ∈ ops, op.isRemove = true := by
  constructor
  · intro loads
    induction ops using List.reverseRecOn with
    | nil => simp
    | append_singleton ops op ih =>
      have earlier := ih fun done isPrefix => loads done (isPrefix.trans (List.prefix_append _ _))
      intro x member
      rcases List.mem_append.mp member with old | last
      · exact earlier x old
      · obtain rfl := List.mem_singleton.mp last
        cases x with
        | set key value => exact absurd (loads _ (List.prefix_refl _)) (load_set_ne name ops earlier key value)
        | remove key => rfl
  · intro removes done isPrefix
    exact load_removes name fun op member => removes op (isPrefix.subset member)

/-- One set of a one-byte value: its length 1 is read as the type, and the
loader ends at the end of the file with an empty table. -/
theorem load_set_one :
    let key : StdString := ⟨[107], by decide⟩
    let value : StdString := ⟨[118], by decide⟩
    let log := transactionLog.file [.set key value]
    load (genTransactionLogFileName 0) (.between [] log) ≠ .ok (replay [.set key value]) := by
  intro key value log
  exact load_set_ne (genTransactionLogFileName 0) [] (by simp) key value

end TransactionLogLoader
end ProjectDb
