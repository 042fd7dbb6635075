import ProjectDb.Serializer

namespace ProjectDb

/-- Decoding that reads exactly the given bytes, and throws `DbException` when
they are cut short. -/
abbrev ReadsBack {α : Type} (d : Decoder Exn α) (bytes : List Byte) (value : α) : Prop :=
  Reads (fun e => e.isDbException = true) d bytes value

theorem deserializeTrivial_reads {α : Type} [Trivial α] (a : α) :
    ReadsBack (deserializeTrivial α) (Trivial.toBytes a) a where
  whole before rest := by
    have run := IStream.read_whole before (Trivial.toBytes a) rest
    rw [Trivial.toBytes_length] at run
    simp only [deserializeTrivial, run, Trivial.ofBytes_toBytes]
  cut before part isPrefix proper := by
    have short : part.length < Trivial.width α := by
      rw [← Trivial.toBytes_length a]
      exact lt_of_le_of_ne isPrefix.length_le fun same => proper (isPrefix.eq_of_length same)
    refine ⟨.dbException "Invalid stream encountered!",
      ⟨before ++ part, before.length + part.length, true, true⟩, ?_, rfl, rfl⟩
    simp only [deserializeTrivial, IStream.read_torn before part short]

theorem checkDeserialized_reads : ReadsBack checkDeserialized [] () where
  whole before rest := by simp [checkDeserialized, IStream.between]
  cut _ part isPrefix proper := absurd (List.prefix_nil.mp isPrefix) proper

/-- A user-defined type checks the stream again after its own fields are read. -/
theorem ReadsBack.checked {α β : Type} {d : Decoder Exn α} {bytes : List Byte} {a : α} (f : α → β)
    (fields : ReadsBack d bytes a) :
    ReadsBack (do let x ← d; checkDeserialized; pure (f x)) bytes (f a) := by
  have check : ReadsBack (do checkDeserialized; pure (f a)) [] (f a) :=
    checkDeserialized_reads.bind (.pure (f a))
  have both := fields.bind (f := fun x => do checkDeserialized; pure (f x)) check
  rwa [List.append_nil] at both

theorem serializeSize_reads {n : Nat} : ReadsBack (deserializeTrivial UInt64) (serializeSize n) (UInt64.ofNat n) :=
  deserializeTrivial_reads (UInt64.ofNat n)

/-- A container: its size, and then its elements one after the other. -/
theorem ReadsBack.container {α β : Type} {d : Decoder Exn α} {encode : α → List Byte} {xs : List α}
    (each : ∀ x ∈ xs, ReadsBack d (encode x) x) (small : xs.length < 2 ^ 64)
    (f : (size : UInt64) → List.Vector α size.toNat → β) (b : β)
    (result : ∀ same : (UInt64.ofNat xs.length).toNat = xs.length, f _ ⟨xs, same.symm⟩ = b) :
    ReadsBack (do
      let size ← deserializeTrivial UInt64
      let elements ← readElements d size.toNat
      pure (f size elements)) (serializeSize xs.length ++ xs.flatMap encode) b := by
  have same : (UInt64.ofNat xs.length).toNat = xs.length := UInt64.toNat_ofNat_of_lt' small
  refine serializeSize_reads.bind ?_
  have elements : ReadsBack (readElements d (UInt64.ofNat xs.length).toNat) (xs.flatMap encode) ⟨xs, same.symm⟩ := by
    generalize (UInt64.ofNat xs.length).toNat = n at same
    subst same
    exact .elements xs each
  rw [← result same]
  exact elements.map (f _)

theorem deserializeString_reads (s : StdString) : ReadsBack deserializeString (serializeString s) s :=
  ReadsBack.container (fun b _ => deserializeTrivial_reads b) s.size_lt
    (fun size chars => (⟨chars.toList, by rw [chars.toList_length]; exact size.toNat_lt⟩ : StdString)) s
    (fun _ => rfl)

/-- Every serializable type reads its own encoding back, whatever follows, and
throws on each of its proper prefixes. -/
theorem Serializable.reads {α : Type} (type : Serializable α) {a : α} (fits : type.Fits a) :
    ReadsBack type.deserialize (type.serialize a) a := by
  induction type with
  | trivial => exact deserializeTrivial_reads a
  | key => exact (deserializeString_reads a.key).checked Key.mk
  | value =>
    refine (deserializeTrivial_reads a.type).bind ?_
    exact (deserializeString_reads a.value).checked (Value.mk a.type)
  | metaData => exact (deserializeTrivial_reads a.msSinceEpoch).checked SSTableMetaData.mk
  | pair first second ihFirst ihSecond =>
    exact (ihFirst fits.1).bind ((ihSecond fits.2).map (Prod.mk a.1))
  | string => exact deserializeString_reads a
  | vector element ih =>
    exact .container (fun x member => ih (fits.2 x member)) fits.1 (fun _ xs => xs.toList) a (fun _ => rfl)
  | map lt first second ihFirst ihSecond =>
    refine .container (fun e member => ?_) fits.1 (fun _ es => SortedMap.empty.ofEntries es.toList) a
      (fun _ => a.ofEntries_entries)
    exact (ihFirst (fits.2 e member).1).bind ((ihSecond (fits.2 e member).2).map (Prod.mk e.1))

theorem entryType_reads (e : Key × Value) : ReadsBack entryType.deserialize (entryType.serialize e) e :=
  entryType.reads ⟨True.intro, True.intro⟩

/-- Reading back from the start of a stream: the value returns and the stream
stands at the first byte after its encoding, or a proper prefix throws. -/
theorem Serializable.roundTrip {α : Type} (type : Serializable α) (a : α) (fits : type.Fits a) :
    (∀ rest, type.deserialize (.between [] (type.serialize a ++ rest)) =
      .ok a (.between (type.serialize a) rest)) ∧
    ∀ part, part <+: type.serialize a → part ≠ type.serialize a →
      ∃ msg is, type.deserialize (.between [] part) = .error (.dbException msg) is := by
  refine ⟨fun rest => (type.reads fits).whole [] rest, fun part isPrefix proper => ?_⟩
  obtain ⟨e, is, run, bad, _⟩ := (type.reads fits).cut [] part isPrefix proper
  cases e with
  | dbException msg => exact ⟨msg, is, run⟩
  | _ => simp [Exn.isDbException] at bad

/-- A list of one entry with an empty key and a tombstone. -/
theorem Serializable.roundTrip_entry :
    let type : Serializable (List (Key × Value)) := .vector (.pair .key .value)
    let a : List (Key × Value) := [(⟨.empty⟩, .tombstone)]
    (∀ rest, type.deserialize (.between [] (type.serialize a ++ rest)) = .ok a (.between (type.serialize a) rest)) ∧
    ∀ part, part <+: type.serialize a → part ≠ type.serialize a →
      ∃ msg is, type.deserialize (.between [] part) = .error (.dbException msg) is :=
  Serializable.roundTrip _ _ ⟨by decide, fun _ _ => ⟨True.intro, True.intro⟩⟩

end ProjectDb
