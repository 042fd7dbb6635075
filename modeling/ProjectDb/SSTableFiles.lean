import ProjectDb.SparseIndex

namespace ProjectDb

namespace SSTableIndex

theorem mem_addIndex {index : SSTableIndex} {key : Key} {pos : Int} {e : Key × Int} :
    e ∈ (index.addIndex key pos).index.entries ↔
      e = (key, pos) ∨ e.1 ≠ key ∧ e ∈ index.index.entries := by
  obtain ⟨k, p⟩ := e
  rw [← SortedMap.find?_eq_some, ← SortedMap.find?_eq_some, addIndex, SortedMap.find?_insert, Prod.mk.injEq]
  split_ifs with same
  · simp [same, eq_comm]
  · simp [same]

/-- The index after the entries `done` of the table have been seen. -/
structure Covers (s : SSTable) (done : List (Key × Value)) (index : SSTableIndex) : Prop where
  exact : ∀ e ∈ index.index.entries, s.StartsAt e.1 e.2
  first : ∀ e, done.head? = some e → ∃ pos, (e.1, pos) ∈ index.index.entries
  last : done = s.table.entries → ∀ e, done.getLast? = some e → ∃ pos, (e.1, pos) ∈ index.index.entries
  closed : index.ifs = none

theorem covers_new (s : SSTable) : Covers s [] new where
  exact := by simp [new]
  first := by simp
  last := by simp
  closed := rfl

/-- What `tryBuildIndex` does with an entry, for any size of the block so far. -/
theorem Covers.step {s : SSTable} {done rest : List (Key × Value)} {e : Key × Value} {index : SSTableIndex}
    (covers : Covers s done index) (split : s.table.entries = done ++ e :: rest) (blockSize : UInt32) (size : Int) :
    Covers s (done ++ [e]) (tryBuildIndex blockSize index e (s.header ++ entriesBytes done).length size
      (done.isEmpty || rest.isEmpty)).2 := by
  have listed {k : Key} (old : ∃ pos, (k, pos) ∈ index.index.entries) (pos : Int) :
      ∃ p, (k, p) ∈ (index.addIndex e.1 pos).index.entries := by
    obtain ⟨p, member⟩ := old
    by_cases same : k = e.1
    · exact ⟨pos, mem_addIndex.mpr (Or.inl (by rw [same]))⟩
    · exact ⟨p, mem_addIndex.mpr (Or.inr ⟨same, member⟩)⟩
  unfold tryBuildIndex
  split_ifs with skipped
  · -- An entry is skipped only when it is neither the first nor the last one.
    simp only [Bool.and_eq_true, Bool.not_eq_true', Bool.or_eq_false_iff, List.isEmpty_eq_false_iff] at skipped
    refine ⟨covers.exact, fun x head => covers.first x ?_, fun whole => ?_, covers.closed⟩
    · rwa [List.head?_append_of_ne_nil _ skipped.1.1] at head
    · rw [split] at whole
      have ends : [e] = e :: rest := List.append_cancel_left whole
      exact absurd (List.cons.inj ends).2.symm skipped.1.2
  · refine ⟨fun x member => ?_, fun x head => ?_, fun _ x ends => ?_, covers.closed⟩
    · rcases mem_addIndex.mp member with rfl | ⟨_, old⟩
      · exact SSTable.startsAt_of_split split
      · exact covers.exact x old
    · cases done with
      | nil =>
        cases head
        exact ⟨_, mem_addIndex.mpr (Or.inl rfl)⟩
      | cons d ds => exact listed (covers.first x (by simpa using head)) _
    · rw [List.getLast?_append, List.getLast?_singleton] at ends
      cases ends
      exact ⟨_, mem_addIndex.mpr (Or.inl rfl)⟩

/-- With its end position and file name set, an index of all entries answers
for the file that holds the SSTable. -/
theorem Covers.indexes {s : SSTable} {index : SSTableIndex} (covers : Covers s s.table.entries index) (name : FileName) :
    Indexes { index with eofPos := s.serialized.length, ssTableFileName := name } s :=
  ⟨covers.exact, covers.first, covers.last rfl, rfl⟩

theorem Covers.holds {s : SSTable} {index : SSTableIndex} {files : Files} {name : FileName}
    (covers : Covers s s.table.entries index) (file : files.read name = some s.serialized)
    (small : s.serialized.length < 2 ^ 63) :
    Holds files { index with eofPos := s.serialized.length, ssTableFileName := name } s := by
  refine ⟨file, small, covers.indexes name, ?_⟩
  intro is opened
  have closed : some is = none := opened.symm.trans covers.closed
  contradiction

end SSTableIndex

/-- Deleting the deprecated files takes away no other file. -/
theorem read_removeFilesWithExt (files : Files) (ext : FileExt) (name : FileName) :
    (files.removeNames (filesWithExt files ext)).read name =
      if name.extension = some ext then none else files.read name := by
  rw [Directory.read_removeNames]
  by_cases extended : name.extension = some ext
  · simp only [extended, if_true, ite_eq_left_iff]
    intro unlisted
    rw [Option.eq_none_iff_forall_not_mem]
    intro contents found
    exact unlisted (List.mem_filter.mpr ⟨Directory.mem_names.mpr ⟨contents, found⟩, by simpa using extended⟩)
  · simp [filesWithExt, extended]

section Flush
variable {blockSize : UInt32} {s : SSTable} {name : FileName} {files : Files}

/-- The bytes written are the serialized SSTable, whatever the block size. -/
theorem writeSSTable_eq (blockSize : UInt32) (s : SSTable) (name : FileName) (files : Files) :
    let built := (serializeIndexed entryType (tryBuildIndex blockSize) s.table.entries
      (Serializable.metaData.serialize s.metaData) .new).2
    built.Covers s s.table.entries ∧ writeSSTable blockSize s name files =
      if s.serialized.length < 2 ^ 63 then
        .ok { built with eofPos := tellp s.serialized, ssTableFileName := name } (files.write name s.serialized)
      else .error (.dbException "Invalid stream encountered!") files := by
  obtain ⟨bytes, covers⟩ := serializeIndexed_spec entryType (tryBuildIndex blockSize)
    (SSTableIndex.Covers s) (Serializable.metaData.serialize s.metaData) s.table.entries .new
    (SSTableIndex.covers_new s) fun done e rest captured size split kept => kept.step split blockSize size
  have contents : (serializeIndexed entryType (tryBuildIndex blockSize) s.table.entries
      (Serializable.metaData.serialize s.metaData) .new).1 = s.serialized := by
    rw [bytes, SSTable.serialized_eq]; rfl
  refine ⟨covers, ?_⟩
  simp only [writeSSTable, writeFile, bind, EStateM.bind, contents]
  split_ifs <;> rfl

/-- A completed write leaves the whole SSTable in the named file, with its index. -/
theorem writeSSTable_spec {index : SSTableIndex} {written : Files}
    (run : writeSSTable blockSize s name files = .ok index written) :
    index.Holds written s ∧ index.ssTableFileName = name ∧ written = files.write name s.serialized := by
  obtain ⟨covers, all⟩ := writeSSTable_eq blockSize s name files
  rw [all] at run
  split_ifs at run with small
  cases run
  exact ⟨covers.holds (by rw [Directory.read_write, if_pos rfl]) small, rfl, rfl⟩

theorem writeSSTable_total (small : s.serialized.length < 2 ^ 63) :
    ∃ index, writeSSTable blockSize s name files = .ok index (files.write name s.serialized) := by
  obtain ⟨_, all⟩ := writeSSTable_eq blockSize s name files
  rw [if_pos small] at all
  exact ⟨_, all⟩

/-- What is thrown when a stream cannot take what is written to it. -/
def StreamFailure (e : Exn) : Prop := e = .dbException "Invalid stream encountered!"

theorem writeSSTable_error {e : Exn} {after : Files} (run : writeSSTable blockSize s name files = .error e after) :
    StreamFailure e := by
  obtain ⟨_, all⟩ := writeSSTable_eq blockSize s name files
  rw [all] at run
  split_ifs at run
  cases run
  rfl

theorem flushSSTable_error {e : Exn} {after : Files} (run : flushSSTable blockSize s name files = .error e after) :
    StreamFailure e := by
  have write : writeSSTable blockSize s name (files.removeNames (filesWithExt files .deprecated)) =
      .error e after := run
  exact writeSSTable_error write

/-- A completed flush leaves the whole SSTable in the named file, with its
index; of the other files only deprecated ones are gone. -/
theorem flushSSTable_spec {index : SSTableIndex} {flushed : Files}
    (run : flushSSTable blockSize s name files = .ok index flushed) :
    index.Holds flushed s ∧ index.ssTableFileName = name ∧
      ∀ n, flushed.read n = if n = name then some s.serialized
        else if n.extension = some .deprecated then none else files.read n := by
  have write : writeSSTable blockSize s name (files.removeNames (filesWithExt files .deprecated)) =
      .ok index flushed := run
  obtain ⟨holds, named, rfl⟩ := writeSSTable_spec write
  refine ⟨holds, named, fun n => ?_⟩
  rw [Directory.read_write, read_removeFilesWithExt]

theorem flushSSTable_total (small : s.serialized.length < 2 ^ 63) :
    ∃ index flushed, flushSSTable blockSize s name files = .ok index flushed := by
  obtain ⟨index, run⟩ := writeSSTable_total small
  exact ⟨index, _, run⟩

/-- Sparse-index lookup on the file and index of a flushed table is lookup in
the table, whether the stream is kept open or not. -/
theorem flushSSTable_seek {index : SSTableIndex} {flushed : Files}
    (run : flushSSTable blockSize s name files = .ok index flushed) (keepSSTableFileOpen : Bool) (key : Key) :
    ∃ sought, index.seek keepSSTableFileOpen flushed key = .ok (s.table.find? key) sought := by
  obtain ⟨sought, answer, _⟩ := (flushSSTable_spec run).1.seek keepSSTableFileOpen key
  exact ⟨sought, answer⟩

/-- Four keys, of which one is removed. -/
def letters : SSTable :=
  ⟨⟨7⟩, (((SortedMap.empty.emplace ⟨⟨[98], by decide⟩⟩ (.ofString ⟨[50], by decide⟩)).emplace
    ⟨⟨[101], by decide⟩⟩ .tombstone).emplace ⟨⟨[105], by decide⟩⟩ (.ofString ⟨[49, 50], by decide⟩)).emplace
    ⟨⟨[111], by decide⟩⟩ (.ofString ⟨[51], by decide⟩)⟩

/-- Three of the four keys are indexed. One of them is looked up, and the one
that is not, and one that is not there. -/
theorem flushSSTable_seek_blocks : ∃ index flushed indexed between absent,
    flushSSTable 40 letters (genSSTableFileName 1) ∅ = .ok index flushed ∧
      index.index.entries.map Prod.snd = [16, 59, 82] ∧
      index.seek true flushed ⟨⟨[105], by decide⟩⟩ = .ok (some (.ofString ⟨[49, 50], by decide⟩)) indexed ∧
      index.seek false flushed ⟨⟨[101], by decide⟩⟩ = .ok (some .tombstone) between ∧
      index.seek false flushed ⟨⟨[106], by decide⟩⟩ = .ok none absent := by
  obtain ⟨index, flushed, run⟩ : ∃ index flushed, flushSSTable 40 letters (genSSTableFileName 1) ∅ = .ok index flushed :=
    flushSSTable_total (show letters.serialized.length < 2 ^ 63 by decide +kernel)
  have positions : (match flushSSTable 40 letters (genSSTableFileName 1) ∅ with
      | .ok index _ => index.index.entries.map Prod.snd
      | .error _ _ => []) = [16, 59, 82] := by decide +kernel
  rw [run] at positions
  obtain ⟨indexed, first⟩ := flushSSTable_seek run true ⟨⟨[105], by decide⟩⟩
  obtain ⟨between, second⟩ := flushSSTable_seek run false ⟨⟨[101], by decide⟩⟩
  obtain ⟨absent, third⟩ := flushSSTable_seek run false ⟨⟨[106], by decide⟩⟩
  exact ⟨index, flushed, indexed, between, absent, run, positions, first, second, third⟩

end Flush

section Load
variable (blockSize : UInt32) {s : SSTable} {name : FileName} {files : Files}

/-- An entry takes at least twenty bytes, so that a table whose file can be
written has a size that fits in `size_t`. -/
theorem size_le_serialized (s : SSTable) : 20 * s.table.size ≤ s.serialized.length := by
  have entries (es : List (Key × Value)) : 20 * es.length ≤ (entriesBytes es).length := by
    induction es with
    | nil => simp
    | cons e es ih =>
      have long := length_entry e
      simp only [entriesBytes_cons, List.length_append, List.length_cons]
      omega
  have table := entries s.table.entries
  unfold SSTable.serialized
  rw [List.length_append]
  unfold SortedMap.size
  omega

/-- What the builder of `loadSSTable` keeps: there is an index if one was asked
for, and it covers the entries read. -/
def LoadCovers (s : SSTable) (asked : Bool) (done : List (Key × Value)) (index : Option SSTableIndex) : Prop :=
  index.isSome = asked ∧ ∀ i, index = some i → i.Covers s done

theorem LoadCovers.step {asked : Bool} {done rest : List (Key × Value)} {e : Key × Value}
    {index : Option SSTableIndex} (covers : LoadCovers s asked done index)
    (split : s.table.entries = done ++ e :: rest) (size : Int) :
    LoadCovers s asked (done ++ [e]) (tryBuildIndex? blockSize index e (s.header ++ entriesBytes done).length size
      (done.isEmpty || rest.isEmpty)).2 := by
  cases index with
  | none => exact ⟨covers.1, by simp [tryBuildIndex?]⟩
  | some index =>
    refine ⟨covers.1, ?_⟩
    rintro i same
    cases same
    exact (covers.2 index rfl).step split blockSize size

/-- Loading reads back the SSTable, and keeps what the builder keeps. -/
theorem loadSSTableFrom_sized (kept : List (Key × Value) → Int → Option SSTableIndex → Prop)
    (index : Option SSTableIndex) (fits : s.table.size < 2 ^ 64) (holds : kept [] 0 index)
    (step : ∀ done e rest size index, s.table.entries = done ++ e :: rest → kept done size index →
      let visit := tryBuildIndex? blockSize index e (s.header ++ entriesBytes done).length
        (size + (entryType.serialize e).length) (done.isEmpty || rest.isEmpty)
      kept (done ++ [e]) (if visit.1 then 0 else size + (entryType.serialize e).length) visit.2) :
    ∃ built, (∃ size, kept s.table.entries size built) ∧
      loadSSTableFrom blockSize index (.between [] s.serialized) =
        .ok (s, built.map fun i => { i with eofPos := s.serialized.length }) (.between s.serialized []) := by
  obtain ⟨built, keeps, run⟩ := deserializeIndexed_sized (tryBuildIndex? blockSize) kept
    (Serializable.metaData.serialize s.metaData) s.table fits index [] holds step
  have metaData := (Serializable.metaData.reads (a := s.metaData) True.intro).whole []
    (tableType.serialize s.table)
  rw [List.append_nil] at run
  rw [List.nil_append] at metaData
  refine ⟨built, keeps, ?_⟩
  rw [SSTable.serialized_eq, loadSSTableFrom, EStateM.bind_ok metaData, EStateM.bind_ok run]
  rfl

theorem loadSSTableFrom_spec (index : Option SSTableIndex) (fits : s.table.size < 2 ^ 64)
    (fresh : ∀ i, index = some i → i = .new) :
    ∃ built, LoadCovers s index.isSome s.table.entries built ∧
      loadSSTableFrom blockSize index (.between [] s.serialized) =
        .ok (s, built.map fun i => { i with eofPos := s.serialized.length }) (.between s.serialized []) := by
  obtain ⟨built, ⟨_, covers⟩, run⟩ := loadSSTableFrom_sized blockSize
    (fun done _ built => LoadCovers s index.isSome done built) index fits
    ⟨rfl, fun i asked => by rw [fresh i asked]; exact SSTableIndex.covers_new s⟩
    fun done e rest size index split kept => kept.step blockSize split _
  exact ⟨built, covers, run⟩

/-- Loading the file of an SSTable returns it. -/
theorem loadSSTable_fits (file : files.read name = some s.serialized) (fits : s.table.size < 2 ^ 64) :
    loadSSTable blockSize name none files = .ok (s, none) files := by
  obtain ⟨built, covers, run⟩ := loadSSTableFrom_spec blockSize none fits (by simp)
  obtain rfl : built = none := by simpa using covers.1
  simp only [loadSSTable, getFileStream, file, run, Option.map_none]

theorem fits_of_small (small : s.serialized.length < 2 ^ 63) : s.table.size < 2 ^ 64 := by
  have sizes := size_le_serialized s
  omega

theorem loadSSTable_spec (file : files.read name = some s.serialized) (small : s.serialized.length < 2 ^ 63) :
    loadSSTable blockSize name none files = .ok (s, none) files :=
  loadSSTable_fits blockSize file (fits_of_small small)

/-- Loading with an index asked for builds one that answers for the file. -/
theorem loadSSTable_index_spec (file : files.read name = some s.serialized)
    (small : s.serialized.length < 2 ^ 63) :
    ∃ index : SSTableIndex, loadSSTable blockSize name (some .new) files = .ok (s, some index) files ∧
      index.Holds files s ∧ index.ssTableFileName = name := by
  obtain ⟨built, covers, run⟩ := loadSSTableFrom_spec blockSize (some .new) (fits_of_small small) (by simp)
  obtain ⟨index, rfl⟩ : ∃ index, built = some index := Option.isSome_iff_exists.mp covers.1
  refine ⟨{ index with eofPos := s.serialized.length, ssTableFileName := name }, ?_,
    (covers.2 index rfl).holds file small, rfl⟩
  simp only [loadSSTable, getFileStream, file, run, Option.map_some]

end Load

end ProjectDb
