import ProjectDb.ContainerRange

namespace ProjectDb

/-- The bytes of some entries, one after the other. -/
def entriesBytes (es : List (Key × Value)) : List Byte := es.flatMap entryType.serialize

@[simp] theorem entriesBytes_nil : entriesBytes [] = [] := rfl

@[simp] theorem entriesBytes_cons (e : Key × Value) (es : List (Key × Value)) :
    entriesBytes (e :: es) = entryType.serialize e ++ entriesBytes es := rfl

@[simp] theorem entriesBytes_append (xs ys : List (Key × Value)) :
    entriesBytes (xs ++ ys) = entriesBytes xs ++ entriesBytes ys := List.flatMap_append

theorem length_serializeSize (n : Nat) : (serializeSize n).length = 8 := length_leBytes ..

theorem length_serializeString (s : StdString) : (serializeString s).length = 8 + s.bytes.length := by
  have chars (bytes : List Byte) : (bytes.flatMap Trivial.toBytes).length = bytes.length := by
    induction bytes with
    | nil => rfl
    | cons b rest ih => simp only [List.flatMap_cons, List.length_append, ih, Trivial.toBytes_length]
                        simp only [Trivial.width, List.length_cons]; omega
  rw [serializeString, List.length_append, length_serializeSize, chars]

theorem length_entry (e : Key × Value) :
    (entryType.serialize e).length = 20 + e.1.key.bytes.length + e.2.value.bytes.length := by
  have tag : (Trivial.toBytes e.2.type).length = 4 := length_leBytes ..
  simp only [entryType, Serializable.serialize, List.length_append, length_serializeString, tag]
  omega

theorem tableType_serialize (t : Table) : tableType.serialize t = serializeSize t.size ++ entriesBytes t.entries := rfl

section Writing
variable {σ α : Type} (element : Serializable α) (tryBuildIndex : IndexBuilder σ α)

/-- Building the index changes nothing of the bytes written, and the builder
sees every entry at the position where its encoding starts, with the size of
the block that is open there. -/
theorem serializeIndexedLoop_spec (kept : List α → Int → σ → Prop) (start : List Byte) (all : List α)
    (step : ∀ done x rest size captured, all = done ++ x :: rest → kept done size captured →
      let visit := tryBuildIndex captured x (start ++ done.flatMap element.serialize).length size
        (done.isEmpty || rest.isEmpty)
      kept (done ++ [x]) ((if visit.1 then 0 else size) + (element.serialize x).length) visit.2)
    (done rest : List α) (size : Int) (captured : σ) (split : all = done ++ rest) (holds : kept done size captured) :
    let os := start ++ done.flatMap element.serialize
    let result := serializeIndexedLoop element tryBuildIndex done.isEmpty (tellp os) size rest os captured
    result.1 = os ++ rest.flatMap element.serialize ∧ ∃ size, kept all size result.2 := by
  induction rest generalizing done size captured with
  | nil =>
    rw [List.append_nil] at split
    subst split
    exact ⟨(List.append_nil _).symm, size, holds⟩
  | cons x rest ih =>
    have grown : (start ++ done.flatMap element.serialize) ++ element.serialize x =
        start ++ (done ++ [x]).flatMap element.serialize := by simp
    have width : tellp (start ++ (done ++ [x]).flatMap element.serialize) -
        tellp (start ++ done.flatMap element.serialize) = (element.serialize x).length := by
      rw [← grown, tellp, tellp, List.length_append]
      omega
    have next := ih (done ++ [x]) _ _ (by rw [split, List.append_assoc]; rfl)
      (step done x rest size captured split holds)
    have later : (done ++ [x]).isEmpty = false := by simp
    simp only [later] at next
    simp only [serializeIndexedLoop]
    rw [grown, width]
    exact ⟨next.1.trans (by simp), next.2⟩

theorem serializeIndexed_sized (kept : List α → Int → σ → Prop) (os : List Byte) (xs : List α) (captured : σ)
    (holds : kept [] 0 captured)
    (step : ∀ done x rest size captured, xs = done ++ x :: rest → kept done size captured →
      let visit := tryBuildIndex captured x (os ++ serializeSize xs.length ++ done.flatMap element.serialize).length
        size (done.isEmpty || rest.isEmpty)
      kept (done ++ [x]) ((if visit.1 then 0 else size) + (element.serialize x).length) visit.2) :
    let result := serializeIndexed element tryBuildIndex xs os captured
    result.1 = os ++ (serializeSize xs.length ++ xs.flatMap element.serialize) ∧ ∃ size, kept xs size result.2 := by
  have whole := serializeIndexedLoop_spec element tryBuildIndex kept (os ++ serializeSize xs.length) xs
    step [] xs 0 captured rfl holds
  simpa [serializeIndexed, List.append_assoc] using whole

/-- The bytes and the positions do not depend on the size of the blocks. -/
theorem serializeIndexed_spec (kept : List α → σ → Prop) (os : List Byte) (xs : List α) (captured : σ)
    (holds : kept [] captured)
    (step : ∀ done x rest captured size, xs = done ++ x :: rest → kept done captured →
      kept (done ++ [x]) (tryBuildIndex captured x
        (os ++ serializeSize xs.length ++ done.flatMap element.serialize).length size
        (done.isEmpty || rest.isEmpty)).2) :
    let result := serializeIndexed element tryBuildIndex xs os captured
    result.1 = os ++ (serializeSize xs.length ++ xs.flatMap element.serialize) ∧ kept xs result.2 := by
  obtain ⟨bytes, _, keeps⟩ := serializeIndexed_sized element tryBuildIndex (fun done _ captured => kept done captured)
    os xs captured holds fun done x rest size captured split kept => step done x rest captured size split kept
  exact ⟨bytes, keeps⟩

end Writing

section Reading
variable {σ : Type} (tryBuildIndex : IndexBuilder σ (Key × Value))

/-- An entry of a table goes to the end of the entries read before it. -/
theorem emplace_next {t rtn : Table} {done rest : List (Key × Value)} {e : Key × Value}
    (split : t.entries = done ++ e :: rest) (read : rtn.entries = done) :
    (rtn.emplace e.1 e.2).entries = done ++ [e] := by
  have sorted := t.sorted
  rw [split] at sorted
  rw [SortedMap.entries_emplace, read]
  exact SortedMap.emplaceIn_append fun x member =>
    (List.pairwise_append.mp sorted).2.2 x member e (List.mem_cons_self ..)

theorem deserializeIndexedLoop_spec (kept : List (Key × Value) → Int → σ → Prop) (start : List Byte) (t : Table)
    (step : ∀ done e rest size captured, t.entries = done ++ e :: rest → kept done size captured →
      let visit := tryBuildIndex captured e (start ++ entriesBytes done).length
        (size + (entryType.serialize e).length) (done.isEmpty || rest.isEmpty)
      kept (done ++ [e]) (if visit.1 then 0 else size + (entryType.serialize e).length) visit.2)
    (done rest : List (Key × Value)) (size : Int) (captured : σ) (rtn : Table) (after : List Byte)
    (split : t.entries = done ++ rest) (read : rtn.entries = done) (holds : kept done size captured) :
    ∃ built, (∃ size, kept t.entries size built) ∧
      deserializeIndexedLoop tryBuildIndex t.size (tellp (start ++ entriesBytes done)) size rtn rest.length captured
          (.between (start ++ entriesBytes done) (entriesBytes rest ++ after)) =
        .ok (t, built) (.between (start ++ entriesBytes t.entries) after) := by
  induction rest generalizing done size captured rtn with
  | nil =>
    rw [List.append_nil] at split
    have same : rtn = t := SortedMap.ext (read.trans split.symm)
    subst same
    exact ⟨captured, ⟨size, by rw [split]; exact holds⟩, by rw [split]; rfl⟩
  | cons e rest ih =>
    have grown := emplace_next split read
    have total : t.size = done.length + rest.length + 1 := by
      rw [SortedMap.size, split, List.length_append, List.length_cons]; omega
    have first : (decide (t.size - (rest.length + 1) = 0) || decide (t.size - (rest.length + 1) = t.size - 1)) =
        (done.isEmpty || rest.isEmpty) := by
      rw [Bool.eq_iff_iff]
      simp only [total, Bool.or_eq_true, decide_eq_true_eq, List.isEmpty_iff, ← List.length_eq_zero_iff]
      omega
    have last : (done ++ [e]).getLastD e = e := by simp
    have run := (entryType_reads e).whole (start ++ entriesBytes done) (entriesBytes rest ++ after)
    have moved : (start ++ entriesBytes done) ++ entryType.serialize e = start ++ entriesBytes (done ++ [e]) := by simp
    have width : ((start ++ entriesBytes (done ++ [e])).length : Int) - tellp (start ++ entriesBytes done) =
        (entryType.serialize e).length := by
      rw [← moved, tellp, List.length_append]
      omega
    rw [moved] at run
    simp only [entriesBytes_cons, List.append_assoc, List.length_cons, deserializeIndexedLoop] at run ⊢
    rw [EStateM.bind_ok run]
    rw [EStateM.bind_ok (show (get : Decoder Exn IStream) _ = _ from rfl)]
    rw [first, grown, last, IStream.tellg_between, width]
    obtain ⟨built, keeps, loop⟩ := ih (done ++ [e]) _ _ (rtn.emplace e.1 e.2)
      (by rw [split, List.append_assoc]; rfl) grown (step done e rest size captured split holds)
    exact ⟨built, keeps, loop⟩

theorem deserializeIndexed_sized (kept : List (Key × Value) → Int → σ → Prop) (start : List Byte) (t : Table)
    (small : t.size < 2 ^ 64) (captured : σ) (after : List Byte) (holds : kept [] 0 captured)
    (step : ∀ done e rest size captured, t.entries = done ++ e :: rest → kept done size captured →
      let visit := tryBuildIndex captured e (start ++ serializeSize t.size ++ entriesBytes done).length
        (size + (entryType.serialize e).length) (done.isEmpty || rest.isEmpty)
      kept (done ++ [e]) (if visit.1 then 0 else size + (entryType.serialize e).length) visit.2) :
    ∃ built, (∃ size, kept t.entries size built) ∧
      deserializeIndexed tryBuildIndex captured (.between start (tableType.serialize t ++ after)) =
        .ok (t, built) (.between (start ++ tableType.serialize t) after) := by
  have count : (UInt64.ofNat t.size).toNat = t.size := UInt64.toNat_ofNat_of_lt' small
  obtain ⟨built, keeps, run⟩ := deserializeIndexedLoop_spec tryBuildIndex kept
    (start ++ serializeSize t.size) t step [] t.entries 0 captured .empty after rfl rfl holds
  have size := (serializeSize_reads (n := t.size)).whole start (entriesBytes t.entries ++ after)
  refine ⟨built, keeps, ?_⟩
  simp only [entriesBytes_nil, List.append_nil] at run
  simp only [tableType_serialize, List.append_assoc] at size run ⊢
  rw [deserializeIndexed, EStateM.bind_ok size]
  rw [EStateM.bind_ok (show (get : Decoder Exn IStream) _ = _ from rfl), count]
  exact run

end Reading

section Range

/-- Decoding from the offset of one entry to the offset of another, or to the
end of the entries, returns exactly the entries between, whatever position and
end-of-file bit the stream had before. -/
theorem deserializeRange_spec (start after : List Byte) (entries : List (Key × Value)) (is : IStream)
    (content : is.content = start ++ entriesBytes entries ++ after) (working : is.failbit = false) :
    deserializeRange start.length (start ++ entriesBytes entries).length is =
      .ok (SortedMap.empty.ofEntries entries) (.between (start ++ entriesBytes entries) after) := by
  have covering := SerializableContainer.table.covering_end start.length entries
  rw [← List.length_append] at covering
  rw [← SerializableContainer.deserializeRange_table]
  exact SerializableContainer.deserializeRange_spec start after entries is (fun _ _ => ⟨True.intro, True.intro⟩)
    covering content working

end Range
end ProjectDb
