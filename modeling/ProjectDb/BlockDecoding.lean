import ProjectDb.ContainerRange
import ProjectDb.SSTableFiles
import ProjectDb.TransactionLogGrammar
import ProjectDb.Foundation.Latching

namespace ProjectDb

section Latching

theorem deserializeTrivial_latches (α : Type) [Trivial α] : Latches StreamFailure (deserializeTrivial α) := by
  intro is good
  by_cases enough : Trivial.width α ≤ (is.content.drop is.pos).length
  · simp only [deserializeTrivial, IStream.read, good, if_true, if_pos enough]
    exact ⟨good, rfl⟩
  · simp only [deserializeTrivial, IStream.read, good, if_true, if_neg enough]
    exact ⟨rfl, rfl, rfl⟩

theorem deserializeTrivial_refuses (α : Type) [Trivial α] : Refuses StreamFailure (deserializeTrivial α) := by
  intro is failed
  have bad : is.good = false := by simp [IStream.good, failed]
  refine ⟨_, { is with failbit := true }, ?_, rfl, rfl, rfl⟩
  simp only [deserializeTrivial, IStream.read, bad, Bool.false_eq_true, if_false]

theorem checkDeserialized_latches : Latches StreamFailure checkDeserialized := by
  intro is good
  have working := (IStream.good_iff.mp good).2
  simp only [checkDeserialized, working, Bool.false_eq_true, if_false]
  exact ⟨good, rfl⟩

theorem deserializeString_latches : Latches StreamFailure deserializeString :=
  (deserializeTrivial_latches UInt64).bind fun _ => ((deserializeTrivial_latches Byte).elements _).bind fun _ => .pure _

theorem entryType_latches : Latches StreamFailure entryType.deserialize := by
  have key : Latches StreamFailure Serializable.key.deserialize :=
    deserializeString_latches.bind fun _ => checkDeserialized_latches.bind fun _ => .pure _
  have value : Latches StreamFailure Serializable.value.deserialize :=
    (deserializeTrivial_latches UInt32).bind fun _ => deserializeString_latches.bind fun _ =>
      checkDeserialized_latches.bind fun _ => .pure _
  exact key.bind fun _ => value.bind fun _ => .pure _

theorem entryType_refuses : Refuses StreamFailure entryType.deserialize :=
  (Refuses.bind (Refuses.bind (deserializeTrivial_refuses UInt64))).bind

theorem deserializeRangeLoop_latches (endPos : Int) (fuel : Nat) (currPos : Int) (rtn : Table) :
    Latches StreamFailure (deserializeRangeLoop endPos fuel currPos rtn) := by
  induction fuel generalizing currPos rtn with
  | zero => exact .pure rtn
  | succ fuel ih =>
    rw [deserializeRangeLoop]
    split_ifs
    · exact entryType_latches.bind fun e => Latches.get.bind fun is => ih _ _
    · exact .pure rtn

theorem entryType_accepts : Accepts entryType.deserialize fun bytes => ∃ e, bytes = entryType.serialize e := by
  refine key_accepts.bind (fun k => Serializable.key.reads trivial) (fun k => value_accepts.andThen _) ?_
  rintro k _ ⟨v, rfl⟩
  exact ⟨(k, v), rfl⟩

theorem entryType_consumes : Consumes entryType.deserialize fun _ => 8 := by
  have value (k : Key) : Consumes (do let v ← Serializable.value.deserialize; pure (k, v)) fun _ => 0 :=
    value_consumes.bind (fun v => Consumes.pure (k, v)) fun _ _ => Nat.zero_le _
  exact key_consumes.bind value fun _ _ => Nat.le_refl _

end Latching

/-- Whole entries stand one after the other from the start of the range until
its end is reached or passed. -/
def WholeEntries (content : List Byte) (startPos endPos : Int) : Prop :=
  ∃ before es after, content = before ++ entriesBytes es ++ after ∧ startPos = before.length ∧
    SerializableContainer.table.Covering endPos before.length es

section Range
variable {startPos endPos : Int} {is : IStream}

/-- A loop that returns has gone over whole entries. -/
theorem deserializeRangeLoop_whole (fuel : Nat) (before rest : List Byte) (rtn : Table) {table : Table} {left : IStream}
    (enough : endPos - before.length ≤ fuel)
    (run : deserializeRangeLoop endPos fuel before.length rtn (.between before rest) = .ok table left) :
    ∃ es after, rest = entriesBytes es ++ after ∧ SerializableContainer.table.Covering endPos before.length es := by
  induction fuel generalizing before rest rtn with
  | zero => exact ⟨[], rest, rfl, by simp only [SerializableContainer.Covering]; omega⟩
  | succ fuel ih =>
    rw [deserializeRangeLoop] at run
    split_ifs at run with ahead
    · rcases entryType_accepts before rest with ⟨_, rest, ⟨e, rfl⟩, rfl⟩ | ⟨e, torn, failed, _⟩
      · rw [EStateM.bind_ok ((entryType_reads e).whole before rest),
          EStateM.bind_ok (show (get : Decoder Exn IStream) _ = _ from rfl), IStream.tellg_between] at run
        have positive := entryType.length_pos e
        have grown : (before ++ entryType.serialize e).length = before.length + (entryType.serialize e).length :=
          List.length_append
        obtain ⟨es, after, rfl, covering⟩ := ih (before ++ entryType.serialize e) rest _ (by omega) run
        refine ⟨e :: es, after, ?_, ahead, ?_⟩
        · rw [entriesBytes_cons, List.append_assoc]
        · rw [grown] at covering
          exact covering
      · rw [EStateM.bind_error failed] at run
        cases run
    · exact ⟨[], rest, rfl, not_lt.mp ahead⟩

theorem deserializeRange_eq (startPos endPos : Int) (is : IStream) : deserializeRange startPos endPos is =
    deserializeRangeLoop endPos (endPos - startPos).toNat startPos .empty (is.seekg startPos) := by
  rw [deserializeRange, EStateM.bind_ok (show (modify _ : Decoder Exn PUnit) _ = .ok () _ from rfl)]

/-- Of an empty range nothing is read. -/
theorem deserializeRange_empty (is : IStream) (none : endPos ≤ startPos) :
    deserializeRange startPos endPos is = .ok .empty (is.seekg startPos) := by
  have fuel : (endPos - startPos).toNat = 0 := by omega
  rw [deserializeRange_eq, fuel]
  rfl

theorem deserializeRange_some (is : IStream) (some : startPos < endPos) : ∃ fuel, deserializeRange startPos endPos is =
    (do let e ← entryType.deserialize
        let is ← get
        deserializeRangeLoop endPos fuel is.tellg (SortedMap.empty.emplace e.1 e.2)) (is.seekg startPos) := by
  obtain ⟨fuel, more⟩ : ∃ n, (endPos - startPos).toNat = n + 1 := ⟨(endPos - startPos).toNat - 1, by omega⟩
  exact ⟨fuel, by rw [deserializeRange_eq, more, deserializeRangeLoop, if_pos some]⟩

/-- A range that is decoded starts inside the bytes. -/
theorem deserializeRange_inside {table : Table} {left : IStream} (some : startPos < endPos)
    (run : deserializeRange startPos endPos is = .ok table left) : 8 ≤ (is.seekg startPos).left := by
  obtain ⟨fuel, same⟩ := deserializeRange_some is some
  rw [same] at run
  obtain ⟨e, middle, first, _⟩ := EStateM.bind_eq_ok run
  exact (Nat.le_add_left 8 _).trans (entryType_consumes _ e middle first)

theorem deserializeRange_failed (is : IStream) (some : startPos < endPos) (failed : (is.seekg startPos).failbit = true) :
    ∃ e left, deserializeRange startPos endPos is = .error e left ∧ StreamFailure e ∧ left.failbit = true ∧
      left.content = is.content := by
  obtain ⟨fuel, same⟩ := deserializeRange_some is some
  obtain ⟨e, left, run, torn, still, bytes⟩ := entryType_refuses (is.seekg startPos) failed
  exact ⟨e, left, by rw [same, EStateM.bind_error run], torn, still, bytes.trans (IStream.content_seekg ..)⟩

/-- On a working stream a range that is decoded is made of whole entries. -/
theorem deserializeRange_whole {table : Table} {left : IStream} (some : startPos < endPos)
    (working : (is.seekg startPos).failbit = false) (run : deserializeRange startPos endPos is = .ok table left) :
    WholeEntries is.content startPos endPos := by
  have inside := deserializeRange_inside some run
  rw [deserializeRange_eq] at run
  have nonneg : 0 ≤ startPos := not_lt.mp fun negative => by
    rw [(IStream.failbit_seekg ..).mpr (Or.inr negative)] at working
    contradiction
  obtain ⟨n, rfl⟩ := Int.eq_ofNat_of_zero_le nonneg
  rw [IStream.seekg_eq working, Int.toNat_natCast] at run inside
  have short : n ≤ is.content.length := by
    unfold IStream.left at inside
    dsimp only at inside
    omega
  obtain ⟨before, rest, content, length⟩ : ∃ before rest, is.content = before ++ rest ∧ before.length = n :=
    ⟨_, _, (List.take_append_drop n _).symm, List.length_take_of_le short⟩
  subst length
  have split : (⟨is.content, before.length, false, false⟩ : IStream) = .between before rest := by rw [content, IStream.between]
  rw [split] at run
  obtain ⟨es, after, rfl, covering⟩ := deserializeRangeLoop_whole _ before rest .empty (Int.self_le_toNat _) run
  exact ⟨before, es, after, by rw [content, List.append_assoc], rfl, covering⟩

/-- A range that is not made of whole entries is not decoded, whatever the state of
the stream, and leaves it failed. -/
theorem deserializeRange_torn (is : IStream) (some : startPos < endPos) (torn : ¬ WholeEntries is.content startPos endPos) :
    ∃ e left, deserializeRange startPos endPos is = .error e left ∧ StreamFailure e ∧ left.failbit = true ∧
      left.content = is.content := by
  by_cases failed : (is.seekg startPos).failbit = true
  · exact deserializeRange_failed is some failed
  have working : (is.seekg startPos).failbit = false := by simpa using failed
  have good : (is.seekg startPos).good = true := IStream.good_iff.mpr ⟨IStream.eofbit_seekg .., working⟩
  have latches := deserializeRangeLoop_latches endPos (endPos - startPos).toNat startPos .empty _ good
  rw [deserializeRange_eq]
  cases run : deserializeRangeLoop endPos (endPos - startPos).toNat startPos .empty (is.seekg startPos) with
  | error e left =>
    rw [run] at latches
    exact ⟨e, left, rfl, latches.1, latches.2.1, latches.2.2.trans (IStream.content_seekg ..)⟩
  | ok table left =>
    exact absurd (deserializeRange_whole some working ((deserializeRange_eq ..).trans run)) torn

/-- A range of whole entries is decoded to the same table on every working stream. -/
theorem WholeEntries.decode {content : List Byte} (whole : WholeEntries content startPos endPos) : ∃ table,
    ∀ is : IStream, is.content = content → is.failbit = false →
      ∃ left, deserializeRange startPos endPos is = .ok table left ∧ left.failbit = false ∧ left.content = content := by
  obtain ⟨before, es, after, rfl, rfl, covering⟩ := whole
  refine ⟨es.foldl SerializableContainer.table.insertEnd SerializableContainer.table.empty, fun is same working => ?_⟩
  rw [← SerializableContainer.deserializeRange_table]
  exact ⟨_, SerializableContainer.deserializeRange_spec before after es is (fun _ _ => ⟨True.intro, True.intro⟩) covering
    same working, rfl, rfl⟩

/-- Entries take bytes. -/
theorem WholeEntries.nonempty {content : List Byte} (whole : WholeEntries content startPos endPos)
    (some : startPos < endPos) : content ≠ [] := by
  obtain ⟨before, es, after, rfl, rfl, covering⟩ := whole
  cases es with
  | nil =>
    simp only [SerializableContainer.Covering] at covering
    omega
  | cons e es =>
    have positive := entryType.length_pos e
    intro none
    rw [entriesBytes_cons] at none
    have length := congrArg List.length none
    simp only [List.length_append, List.length_nil] at length
    omega

end Range
end ProjectDb
