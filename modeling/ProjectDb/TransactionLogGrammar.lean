import ProjectDb.TransactionLogFormat

namespace ProjectDb

/-- At least four bytes, whose tag is neither that of a set nor that of a remove. -/
def BadTag (content : List Byte) : Prop :=
  ∃ (tag : UInt32) (rest : List Byte), content = Trivial.toBytes tag ++ rest ∧
    tag ≠ DbTransactionType.set ∧ tag ≠ DbTransactionType.remove

/-- The longest sequence of complete records at the front of some bytes, and
the bytes behind it. -/
structure LongestRecords (content : List Byte) (rs : List LogRecord) (tail : List Byte) : Prop where
  split : content = recordsBytes rs ++ tail
  longest : ∀ more rest, content = recordsBytes more ++ rest → more.length ≤ rs.length

theorem exists_longestRecords (content : List Byte) : ∃ rs tail, LongestRecords content rs tail := by
  have bounded : ∀ n, (∃ rs tail, content = recordsBytes rs ++ tail ∧ rs.length = n) → n ≤ content.length := by
    rintro _ ⟨rs, tail, split, rfl⟩
    have long := length_recordsBytes rs
    rw [split, List.length_append]
    omega
  classical
  obtain ⟨rs, tail, split, length⟩ := Nat.findGreatest_spec
    (P := fun n => ∃ rs tail, content = recordsBytes rs ++ tail ∧ rs.length = n)
    (Nat.zero_le content.length) ⟨[], content, rfl, rfl⟩
  refine ⟨rs, tail, split, fun more rest other => ?_⟩
  rw [length]
  exact Nat.le_findGreatest (bounded _ ⟨more, rest, other, rfl⟩) ⟨more, rest, other, rfl⟩

/-- Behind the longest sequence stands no further record. -/
theorem LongestRecords.tail {content tail : List Byte} {rs : List LogRecord} (longest : LongestRecords content rs tail)
    (r : LogRecord) (rest : List Byte) : tail ≠ r.bytes ++ rest := by
  intro starts
  have more := longest.longest (rs ++ [r]) rest (by rw [longest.split, starts]; simp)
  simp only [List.length_append, List.length_singleton] at more
  omega

section Exhaustion

/-- A decoding that knows which bytes it accepts, and throws `DbException` at
the end of the stream when it finds none of them. -/
abbrev Accepts {α : Type} (d : Decoder Exn α) (accepts : List Byte → Prop) : Prop :=
  Exhaustive (fun e => e.isDbException = true) d accepts

theorem deserializeTrivial_accepts {α : Type} [Trivial α]
    (onto : ∀ bytes : List Byte, bytes.length = Trivial.width α → ∃ a : α, bytes = Trivial.toBytes a) :
    Accepts (deserializeTrivial α) fun bytes => ∃ a : α, bytes = Trivial.toBytes a := by
  intro before content
  by_cases enough : Trivial.width α ≤ content.length
  · refine Or.inl ⟨content.take (Trivial.width α), content.drop (Trivial.width α), onto _ ?_,
      (List.take_append_drop ..).symm⟩
    rw [List.length_take]
    omega
  · refine Or.inr ⟨.dbException "Invalid stream encountered!",
      ⟨before ++ content, before.length + content.length, true, true⟩, ?_, rfl, rfl⟩
    simp only [deserializeTrivial, IStream.read_torn before content (not_le.mp enough)]

theorem byte_onto (bytes : List Byte) (one : bytes.length = 1) : ∃ b : Byte, bytes = Trivial.toBytes b := by
  obtain ⟨b, rfl⟩ := List.length_eq_one_iff.mp one
  exact ⟨b, rfl⟩

theorem uint32_onto (bytes : List Byte) (four : bytes.length = 4) : ∃ n : UInt32, bytes = Trivial.toBytes n := by
  have bound := leNat_lt bytes
  have back := leBytes_leNat bytes
  rw [four] at bound back
  refine ⟨UInt32.ofNat (leNat bytes), ?_⟩
  simp only [Trivial.toBytes]
  rw [UInt32.toNat_ofNat_of_lt' bound, back]

theorem uint64_onto (bytes : List Byte) (eight : bytes.length = 8) : ∃ n : UInt64, bytes = Trivial.toBytes n := by
  have bound := leNat_lt bytes
  have back := leBytes_leNat bytes
  rw [eight] at bound back
  refine ⟨UInt64.ofNat (leNat bytes), ?_⟩
  simp only [Trivial.toBytes]
  rw [UInt64.toNat_ofNat_of_lt' bound, back]

/-- A length and as many bytes are a string, whatever the length. -/
theorem deserializeString_accepts : Accepts deserializeString fun bytes => ∃ s, bytes = serializeString s := by
  have byte : Accepts (deserializeTrivial Byte) fun bytes => ∃ b : Byte, bytes = Trivial.toBytes b :=
    deserializeTrivial_accepts byte_onto
  have chars (size : UInt64) := byte.elements deserializeTrivial_reads size.toNat
  refine (deserializeTrivial_accepts uint64_onto).bind deserializeTrivial_reads (fun size => (chars size).andThen _) ?_
  rintro size _ ⟨chars, rfl⟩
  have length : UInt64.ofNat chars.toList.length = size := by rw [chars.toList_length, UInt64.ofNat_toNat]
  refine ⟨⟨chars.toList, by rw [chars.toList_length]; exact size.toNat_lt⟩, ?_⟩
  rw [serializeString, serializeSize, length]

theorem key_accepts : Accepts Serializable.key.deserialize fun bytes => ∃ k, bytes = Serializable.key.serialize k := by
  intro before content
  rcases deserializeString_accepts.andThen (fun s => do checkDeserialized; pure (Key.mk s)) before content with
    ⟨_, rest, ⟨s, rfl⟩, split⟩ | torn
  · exact Or.inl ⟨_, rest, ⟨⟨s⟩, rfl⟩, split⟩
  · exact Or.inr torn

theorem value_accepts :
    Accepts Serializable.value.deserialize fun bytes => ∃ v, bytes = Serializable.value.serialize v := by
  refine (deserializeTrivial_accepts uint32_onto).bind deserializeTrivial_reads
    (fun type => deserializeString_accepts.andThen _) ?_
  rintro type _ ⟨s, rfl⟩
  exact ⟨⟨type, s⟩, rfl⟩

end Exhaustion

theorem badTag_iff (tag : UInt32) (rest : List Byte) :
    BadTag (Trivial.toBytes tag ++ rest) ↔ tag ≠ DbTransactionType.set ∧ tag ≠ DbTransactionType.remove := by
  constructor
  · rintro ⟨other, rest', same, bad⟩
    have lengths : (Trivial.toBytes tag).length = (Trivial.toBytes other).length := by
      rw [Trivial.toBytes_length, Trivial.toBytes_length]
    have tags : (Trivial.ofBytes (Trivial.toBytes tag) : UInt32) = Trivial.ofBytes (Trivial.toBytes other) :=
      congrArg Trivial.ofBytes (List.append_inj same lengths).1
    rw [Trivial.ofBytes_toBytes, Trivial.ofBytes_toBytes] at tags
    rwa [tags]
  · intro bad
    exact ⟨tag, rest, rfl, bad⟩

/-- No record starts with a bad tag. -/
theorem BadTag.no_record {content : List Byte} (bad : BadTag content) (r : LogRecord) (rest : List Byte) :
    content ≠ r.bytes ++ rest := by
  rintro rfl
  cases r with
  | set key value =>
    rw [LogRecord.bytes, List.append_assoc, badTag_iff] at bad
    exact bad.1 rfl
  | remove key =>
    rw [LogRecord.bytes, List.append_assoc, badTag_iff] at bad
    exact bad.2 rfl

namespace TransactionLogLoader
variable (name : FileName)

/-- The fields behind the tag of a set. -/
theorem setFields_accepts (rtn : Table) :
    Accepts (do let key ← Serializable.key.deserialize
                let value ← Serializable.value.deserialize
                pure (rtn.set key value) : Decoder Exn Table) fun bytes =>
      ∃ key value, bytes = Serializable.key.serialize key ++ Serializable.value.serialize value := by
  refine key_accepts.bind (fun key => Serializable.key.reads (a := key) True.intro)
    (fun key => value_accepts.andThen _) ?_
  rintro key _ ⟨value, rfl⟩
  exact ⟨key, value, rfl⟩

/-- What one pass makes of any bytes that no complete record starts: an
unknown tag throws away from the end of the file, all else throws there. -/
theorem loadRecord_tail (rtn : Table) (before : List Byte) {tail : List Byte}
    (none : ∀ (r : LogRecord) rest, tail ≠ r.bytes ++ rest) :
    ∃ e is, loadRecord name rtn (.between before tail) = .error e is ∧ e.isDbException = true ∧
      (is.eofbit = true ↔ ¬ BadTag tail) := by
  have tags : Accepts (deserializeTrivial UInt32) fun bytes => ∃ tag : UInt32, bytes = Trivial.toBytes tag :=
    deserializeTrivial_accepts uint32_onto
  rcases tags before tail with ⟨_, rest, ⟨tag, rfl⟩, rfl⟩ | ⟨e, is, run, bad, eof⟩
  · have read := (deserializeTrivial_reads tag).whole before rest
    rw [loadRecord, EStateM.bind_ok read, badTag_iff]
    by_cases isSet : tag = DbTransactionType.set
    · subst isSet
      rw [if_pos rfl]
      rcases setFields_accepts rtn (before ++ Trivial.toBytes DbTransactionType.set) rest with
        ⟨_, left, ⟨key, value, rfl⟩, rfl⟩ | ⟨e, is, run, bad, eof⟩
      · exact absurd (List.append_assoc ..).symm (none (.set key value) left)
      · exact ⟨e, is, run, bad, by simp [eof]⟩
    · rw [if_neg isSet]
      by_cases isRemove : tag = DbTransactionType.remove
      · subst isRemove
        rw [if_pos rfl]
        rcases key_accepts.andThen (fun key => pure (rtn.remove key))
          (before ++ Trivial.toBytes DbTransactionType.remove) rest with
          ⟨_, left, ⟨key, rfl⟩, rfl⟩ | ⟨e, is, run, bad, eof⟩
        · exact absurd (List.append_assoc ..).symm (none (.remove key) left)
        · exact ⟨e, is, run, bad, by simp [eof]⟩
      · rw [if_neg isRemove]
        exact ⟨_, _, rfl, rfl, by simp [IStream.between, isSet, isRemove]⟩
  · refine ⟨e, is, EStateM.bind_error run, bad, ?_⟩
    have short : ¬ BadTag tail := by
      rintro ⟨tag, rest, rfl, _⟩
      rw [(deserializeTrivial_reads tag).whole before rest] at run
      cases run
    simp [eof, short]

/-- Records, and then no further complete one: the loader replays them, unless
a tag follows that is none. -/
theorem load_records (rs : List LogRecord) {tail : List Byte} (none : ∀ (r : LogRecord) rest, tail ≠ r.bytes ++ rest) :
    (BadTag tail → ∃ msg, load name (.between [] (recordsBytes rs ++ tail)) = .error (.dbException msg)) ∧
      (¬ BadTag tail → load name (.between [] (recordsBytes rs ++ tail)) = .ok (replayRecords rs)) := by
  have long := length_recordsBytes rs
  obtain ⟨fuel, enough⟩ : ∃ fuel, (recordsBytes rs ++ tail).length + 1 = rs.length + (fuel + 1) :=
    ⟨(recordsBytes rs ++ tail).length - rs.length, by rw [List.length_append]; omega⟩
  obtain ⟨e, is, run, bad, eof⟩ := loadRecord_tail name (replayRecords rs) ([] ++ recordsBytes rs) none
  have loop : load name (.between [] (recordsBytes rs ++ tail)) =
      if e.isDbException && is.eofbit then .ok (replayRecords rs) else .error e := by
    rw [load, IStream.content_between, List.nil_append, enough, loadLoop_records, loadLoop, ← replayRecords, run]
  rw [loop, bad, Bool.true_and]
  refine ⟨fun unknown => ?_, fun known => if_pos (eof.mpr known)⟩
  rw [if_neg fun ended => eof.mp ended unknown]
  cases e with
  | dbException msg => exact ⟨msg, rfl⟩
  | _ => simp [Exn.isDbException] at bad

/-- A log that is cut off anywhere consists of complete records and a proper
prefix of the next one. -/
theorem cut_records (rs : List LogRecord) {part : List Byte} (isPrefix : part <+: recordsBytes rs) :
    ∃ done left torn, rs = done ++ left ∧ part = recordsBytes done ++ torn ∧
      (left = [] ∧ torn = [] ∨ ∃ r more, left = r :: more ∧ torn <+: r.bytes ∧ torn ≠ r.bytes) := by
  induction rs generalizing part with
  | nil => exact ⟨[], [], [], rfl, List.prefix_nil.mp isPrefix, Or.inl ⟨rfl, rfl⟩⟩
  | cons r rs ih =>
    rcases List.prefix_append_cases isPrefix with ⟨short, inside⟩ | ⟨tail, rfl, later⟩
    · exact ⟨[], r :: rs, part, rfl, rfl, Or.inr ⟨r, rs, rfl, short, inside⟩⟩
    · obtain ⟨done, left, torn, rfl, rfl, cut⟩ := ih later
      exact ⟨r :: done, left, torn, rfl, by simp, cut⟩

/-- A proper prefix of a record starts with no record, and has no bad tag. -/
theorem torn_record {r : LogRecord} {torn : List Byte} (isPrefix : torn <+: r.bytes) (proper : torn ≠ r.bytes) :
    (∀ (other : LogRecord) rest, torn ≠ other.bytes ++ rest) ∧ ¬ BadTag torn := by
  obtain ⟨e, is, run, bad, eof⟩ := (loadRecord_reads ⟨0, []⟩ .empty r).cut [] torn isPrefix proper
  have none : ∀ (other : LogRecord) rest, torn ≠ other.bytes ++ rest := by
    rintro other rest rfl
    rw [(loadRecord_reads ⟨0, []⟩ .empty other).whole [] rest] at run
    cases run
  obtain ⟨e', is', run', _, known⟩ := loadRecord_tail ⟨0, []⟩ .empty [] none
  rw [run] at run'
  cases run'
  exact ⟨none, known.mp eof⟩

theorem nil_record : (∀ (r : LogRecord) rest, [] ≠ r.bytes ++ rest) ∧ ¬ BadTag [] :=
  torn_record (r := .remove ⟨.empty⟩) (List.nil_prefix ..) (by decide)

/-- Of a log that is cut off the records that fit are replayed. -/
theorem load_truncated (rs : List LogRecord) {part : List Byte} (isPrefix : part <+: recordsBytes rs) :
    ∃ done left, rs = done ++ left ∧ recordsBytes done <+: part ∧
      (∀ r ∈ left.head?, ¬ recordsBytes (done ++ [r]) <+: part) ∧
      load name (.between [] part) = .ok (replayRecords done) := by
  obtain ⟨done, left, torn, rfl, rfl, cut⟩ := cut_records rs isPrefix
  refine ⟨done, left, rfl, List.prefix_append .., fun r next whole => ?_, ?_⟩
  · rw [recordsBytes_append, List.prefix_append_right_inj] at whole
    rcases cut with ⟨rfl, _⟩ | ⟨r', more, rfl, short, proper⟩
    · cases next
    · cases next
      simp only [recordsBytes_cons, recordsBytes_nil, List.append_nil] at whole
      exact proper (short.eq_of_length_le whole.length_le)
  · rcases cut with ⟨_, rfl⟩ | ⟨r, more, _, short, proper⟩
    · exact (load_records name done nil_record.1).2 nil_record.2
    · obtain ⟨none, known⟩ := torn_record short proper
      exact (load_records name done none).2 known

theorem loadRecord_consumes {rtn next : Table} {ifs rest : IStream} (run : loadRecord name rtn ifs = .ok next rest) :
    rest.left + 4 ≤ ifs.left := by
  obtain ⟨tag, middle, read, fields⟩ := EStateM.bind_eq_ok run
  have four : middle.left + 4 ≤ ifs.left := deserializeTrivial_consumes ifs tag middle read
  have value (key : Key) : Consumes (do let value ← Serializable.value.deserialize; pure (rtn.set key value)) fun _ => 0 :=
    value_consumes.bind (fun value => .pure (rtn.set key value)) fun _ _ => Nat.zero_le _
  have more : rest.left ≤ middle.left := by
    split_ifs at fields
    · exact key_consumes.bind value (fun _ _ => Nat.zero_le _) middle next rest fields
    · exact key_consumes.bind (fun key => .pure (rtn.remove key)) (fun _ _ => Nat.zero_le _) middle next rest fields
    · cases fields
  omega

/-- The loop comes to an end by itself: the fuel never runs out. -/
theorem loadLoop_enough {fuel : Nat} (rtn : Table) (ifs : IStream) (enough : ifs.left < fuel) (extra : Nat) :
    loadLoop name (fuel + extra) rtn ifs = loadLoop name fuel rtn ifs := by
  induction fuel generalizing rtn ifs with
  | zero => omega
  | succ fuel ih =>
    rw [Nat.succ_add, loadLoop, loadLoop]
    cases step : loadRecord name rtn ifs with
    | error e rest => rfl
    | ok next rest =>
      have fewer := loadRecord_consumes name step
      exact ih next rest (by omega)

/-- The loader takes the longest sequence of complete records at the front of
the file and replays them, unless a bad tag follows; it always ends. -/
theorem load_grammar (content : List Byte) :
    (∃ rs tail, LongestRecords content rs tail) ∧
    (∀ rs tail, LongestRecords content rs tail →
      (BadTag tail → ∃ msg, load name (.between [] content) = .error (.dbException msg)) ∧
        (¬ BadTag tail → load name (.between [] content) = .ok (replayRecords rs))) ∧
    (∀ fuel, content.length < fuel →
      loadLoop name fuel .empty (.between [] content) = load name (.between [] content)) ∧
    ∀ rs, content <+: recordsBytes rs → ∃ done left, rs = done ++ left ∧ recordsBytes done <+: content ∧
      (∀ r ∈ left.head?, ¬ recordsBytes (done ++ [r]) <+: content) ∧
      load name (.between [] content) = .ok (replayRecords done) := by
  refine ⟨exists_longestRecords content, fun rs tail longest => ?_, fun fuel enough => ?_,
    fun rs isPrefix => load_truncated name rs isPrefix⟩
  · rw [longest.split]
    exact load_records name rs longest.tail
  · obtain ⟨extra, rfl⟩ := Nat.exists_eq_add_of_lt enough
    have start : (IStream.between [] content).left < content.length + 1 := by
      simp [IStream.left, IStream.between]
    rw [load, IStream.content_between, List.nil_append, ← loadLoop_enough name .empty _ start extra]
    congr 1
    omega

end TransactionLogLoader
end ProjectDb
