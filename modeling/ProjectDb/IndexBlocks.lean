import ProjectDb.SSTableFiles
import ProjectDb.Foundation.Blocks

namespace ProjectDb

def encodedSize (e : Key × Value) : Nat := (entryType.serialize e).length

theorem total_encodedSize (es : List (Key × Value)) : Block.total encodedSize es = (entriesBytes es).length := by
  rw [entriesBytes, List.length_flatMap]
  rfl

theorem encodedSize_pos (e : Key × Value) : 0 < encodedSize e := by
  rw [encodedSize, length_entry]
  omega

/-- Where the entry behind these ones starts in the file of an SSTable. -/
def SSTable.positionAfter (s : SSTable) (front : List (Key × Value)) : Int := (s.header ++ entriesBytes front).length

theorem SSTable.positionAfter_eq (s : SSTable) (front : List (Key × Value)) :
    s.positionAfter front = (s.header.length + Block.total encodedSize front : Nat) := by
  rw [positionAfter, List.length_append, total_encodedSize]

namespace SSTableIndex

/-- Where the block in front of these index entries ends. -/
def blockEnd (index : SSTableIndex) (after : List (Key × Int)) : Int := (after.head?.map Prod.snd).getD index.eofPos

/-- The index bounds what a lookup decodes and what it keeps in memory. -/
structure FineAndSmall (index : SSTableIndex) (blockSize : Nat) (s : SSTable) : Prop where
  increasing : index.index.entries.Pairwise fun a b => a.1 < b.1 ∧ a.2 < b.2
  fine : ∀ before e after, index.index.entries = before ++ e :: after →
    ∃ front block back largest, s.table.entries = front ++ block ++ back ∧ block.head?.map Prod.fst = some e.1 ∧
      e.2 = s.positionAfter front ∧ index.blockEnd after = s.positionAfter (front ++ block) ∧
      largest ∈ block ∧ (∀ x ∈ block, encodedSize x ≤ encodedSize largest) ∧
      index.blockEnd after - e.2 < blockSize + encodedSize largest
  small : index.index.size ≤ 2 + (entriesBytes s.table.entries).length / blockSize

theorem entries_addIndex {index : SSTableIndex} {key : Key} {pos : Int} (above : ∀ e ∈ index.index.entries, e.1 < key) :
    (index.addIndex key pos).index.entries = index.index.entries ++ [(key, pos)] :=
  SortedMap.insertIn_append above

/-- The index entries of blocks that lie one behind the other in the file. -/
def marks (s : SSTable) (blocks : List (Block (Key × Value))) : List (Key × Int) :=
  (Block.starts encodedSize s.header.length blocks).map fun p => (p.1.1, (p.2 : Int))

/-- The index after the entries `done`: one entry for each block that they are
cut into. The size is that of what the builder counts of the last block. -/
inductive Blocked (limit : Nat) (s : SSTable) (counted : Block (Key × Value) → List (Key × Value)) :
    List (Key × Value) → Int → SSTableIndex → Prop
  | start {index : SSTableIndex} (unused : index.index.entries = []) : Blocked limit s counted [] 0 index
  | cut {done : List (Key × Value)} {index : SSTableIndex} {closed : List (Block (Key × Value))}
      {last : Block (Key × Value)}
      (cut : Block.Cut encodedSize limit (if done = s.table.entries then limit else 0)
        (Block.total encodedSize (counted last)) done closed last)
      (entries : index.index.entries = marks s (closed ++ [last])) :
      Blocked limit s counted done (Block.total encodedSize (counted last)) index

section Building
variable {limit : Nat} {s : SSTable} {counted : Block (Key × Value) → List (Key × Value)}
  {done rest : List (Key × Value)} {e : Key × Value} {size : Int} {index : SSTableIndex}

theorem not_whole (split : s.table.entries = done ++ e :: rest) : done ≠ s.table.entries := by
  intro same
  have lengths := congrArg List.length (same.trans split)
  simp at lengths

theorem whole_iff (split : s.table.entries = done ++ e :: rest) : done ++ [e] = s.table.entries ↔ rest = [] := by
  rw [split]
  simp [eq_comm]

/-- An entry that starts a block is added behind the ones before it. -/
theorem Blocked.opened (blocked : Blocked limit s counted done size index) (positive : 0 < limit)
    (split : s.table.entries = done ++ e :: rest) (few : Block.total encodedSize (counted ⟨e, []⟩) ≤ encodedSize e)
    (due : done = [] ∨ rest = [] ∨ limit + Block.total encodedSize (counted ⟨e, []⟩) ≤ size + encodedSize e) :
    Blocked limit s counted (done ++ [e]) (Block.total encodedSize (counted ⟨e, []⟩))
      (index.addIndex e.1 (s.header ++ entriesBytes done).length) := by
  have sorted := s.table.sorted
  rw [split] at sorted
  have above (x) (member : x ∈ done) : x.1 < e.1 :=
    (List.pairwise_append.mp sorted).2.2 x member e (List.mem_cons_self ..)
  cases blocked with
  | start unused =>
    refine .cut (.start positive few) ?_
    rw [entries_addIndex (by simp [unused]), unused]
    rfl
  | @cut _ _ closed last cut entries =>
    rw [if_neg (not_whole split)] at cut
    have after : s.positionAfter done = _ := s.positionAfter_eq done
    refine .cut (cut.opened positive ?_) ?_
    · split_ifs with whole
      · omega
      · rcases due with empty | ends | full
        · rw [empty] at cut
          exact absurd cut.whole (by simp [Block.elements])
        · exact absurd ((whole_iff split).mpr ends) whole
        · omega
    · rw [marks, cut.starts_opened, List.map_append, entries_addIndex ?_, entries, marks]
      · rw [← SSTable.positionAfter, after]
        rfl
      · rw [entries]
        intro x listed
        obtain ⟨p, start, rfl⟩ := List.mem_map.mp listed
        obtain ⟨front, back, parts⟩ := List.append_of_mem start
        obtain ⟨earlier, b, later, whole, _, rfl, _⟩ := cut.split parts
        exact above b.first (by rw [whole]; simp [Block.elements])

/-- An entry that is not indexed belongs to the last block. -/
theorem Blocked.joined (blocked : Blocked limit s counted done size index) (split : s.table.entries = done ++ e :: rest)
    (some : done ≠ []) (counts : ∀ b : Block (Key × Value), counted (b.join e) = counted b ++ [e])
    (light : ∀ last : Block (Key × Value), size = Block.total encodedSize (counted last) →
      ∃ heavy ∈ last.elements ++ [e], Block.total encodedSize (last.elements ++ [e]) < limit + encodedSize heavy) :
    Blocked limit s counted (done ++ [e]) (size + encodedSize e) index := by
  cases blocked with
  | start unused => exact absurd rfl some
  | @cut _ _ closed last cut entries =>
    rw [if_neg (not_whole split)] at cut
    obtain ⟨heavy, member, below⟩ := light last rfl
    have grown : Block.total encodedSize (counted (last.join e)) =
        Block.total encodedSize (counted last) + encodedSize e := by simp [counts]
    have joined : Block.Cut encodedSize limit (if done ++ [e] = s.table.entries then limit else 0)
        (Block.total encodedSize (counted (last.join e))) (done ++ [e]) closed (last.join e) :=
      cut.joined member below grown.le
    have more : Blocked limit s counted (done ++ [e]) _ index :=
      .cut joined (by rw [entries, marks, marks, Block.Cut.starts_joined])
    rw [grown] at more
    exact_mod_cast more

end Building

section Builders
variable {blockSize : UInt32} {s : SSTable} {done rest : List (Key × Value)} {e : Key × Value} {size : Int}
  {index : SSTableIndex}

/-- What `tryBuildIndex` decides about an entry, and why. -/
theorem tryBuildIndex_cases (blockSize : UInt32) (index : SSTableIndex) (e : Key × Value) (pos size : Int)
    (done rest : List (Key × Value)) :
    (tryBuildIndex blockSize index e pos size (done.isEmpty || rest.isEmpty) = (false, index) ∧
        done ≠ [] ∧ size < (blockSize.toNat : Int)) ∨
      (tryBuildIndex blockSize index e pos size (done.isEmpty || rest.isEmpty) = (true, index.addIndex e.1 pos) ∧
        (done = [] ∨ rest = [] ∨ (blockSize.toNat : Int) ≤ size)) := by
  unfold tryBuildIndex
  split_ifs with skipped
  · simp only [Bool.and_eq_true, Bool.not_eq_true', Bool.or_eq_false_iff, List.isEmpty_eq_false_iff,
      decide_eq_true_eq] at skipped
    exact Or.inl ⟨rfl, skipped.1.1, skipped.2⟩
  · refine Or.inr ⟨rfl, ?_⟩
    simp only [Bool.and_eq_true, Bool.not_eq_true', Bool.or_eq_false_iff, List.isEmpty_eq_false_iff,
      decide_eq_true_eq, not_and, not_lt] at skipped
    by_cases first : done = []
    · exact Or.inl first
    · by_cases last : rest = []
      · exact Or.inr (Or.inl last)
      · exact Or.inr (Or.inr (skipped ⟨first, last⟩))

/-- When a table is written, the builder is asked before an entry and has
counted the whole of the last block. -/
theorem Blocked.write (blocked : Blocked blockSize.toNat s Block.elements done size index) (positive : 0 < blockSize.toNat)
    (split : s.table.entries = done ++ e :: rest) :
    let visit := tryBuildIndex blockSize index e (s.header ++ entriesBytes done).length size
      (done.isEmpty || rest.isEmpty)
    Blocked blockSize.toNat s Block.elements (done ++ [e])
      ((if visit.1 then 0 else size) + (entryType.serialize e).length) visit.2 := by
  intro visit
  rcases tryBuildIndex_cases blockSize index e (s.header ++ entriesBytes done).length size done rest with
    ⟨skipped, some, light⟩ | ⟨added, due⟩
  · rw [show visit = _ from skipped]
    refine blocked.joined split some (fun b => rfl) fun last counted => ⟨e, by simp, ?_⟩
    simp only [Block.total_append, Block.total_cons, Block.total_nil]
    omega
  · rw [show visit = _ from added]
    have alone : Block.total encodedSize (Block.elements ⟨e, []⟩) = encodedSize e := by simp [Block.elements]
    have opened := blocked.opened positive split alone.le
      (due.imp_right (Or.imp_right fun full => by rw [alone]; omega))
    rw [alone] at opened
    simp only [if_true, Int.zero_add]
    exact opened

/-- When a table is read, the builder is asked behind an entry and has not
counted the first one of the last block. -/
theorem Blocked.read (blocked : Blocked blockSize.toNat s Block.rest done size index) (positive : 0 < blockSize.toNat)
    (split : s.table.entries = done ++ e :: rest) :
    let visit := tryBuildIndex blockSize index e (s.header ++ entriesBytes done).length
      (size + (entryType.serialize e).length) (done.isEmpty || rest.isEmpty)
    Blocked blockSize.toNat s Block.rest (done ++ [e])
      (if visit.1 then 0 else size + (entryType.serialize e).length) visit.2 := by
  intro visit
  rcases tryBuildIndex_cases blockSize index e (s.header ++ entriesBytes done).length
    (size + (entryType.serialize e).length) done rest with ⟨skipped, some, light⟩ | ⟨added, due⟩
  · rw [show visit = _ from skipped]
    refine blocked.joined split some (fun b => rfl) fun last counted => ⟨last.first, by simp [Block.elements], ?_⟩
    simp only [Block.elements, List.cons_append, Block.total_append, Block.total_cons, Block.total_nil, encodedSize] at counted ⊢
    omega
  · rw [show visit = _ from added]
    have opened := blocked.opened (e := e) positive split (Nat.zero_le _)
    simp only [Block.total_nil] at opened
    exact opened due

/-- An index made of blocks is fine and small once its end is set. -/
theorem Blocked.fineAndSmall {counted : Block (Key × Value) → List (Key × Value)} {limit : Nat}
    (blocked : Blocked limit s counted s.table.entries size index) (positive : 0 < limit) (name : FileName) :
    FineAndSmall { index with eofPos := s.serialized.length, ssTableFileName := name } limit s := by
  generalize whole : s.table.entries = done at blocked
  cases blocked with
  | start unused => exact ⟨by simp [unused], by simp [unused], by simp [SortedMap.size, unused]⟩
  | @cut _ _ closed last cut entries =>
    rw [if_pos whole.symm] at cut
    subst whole
    have positions : (marks s (closed ++ [last])).Pairwise fun a b => a.2 < b.2 := by
      refine List.pairwise_map.mpr ((Block.starts_increasing encodedSize_pos s.header.length _).imp ?_)
      exact fun less => Int.ofNat_lt.mpr less
    refine ⟨?_, fun before e after split => ?_, ?_⟩
    · refine List.Pairwise.and index.index.sorted ?_
      rw [entries]
      exact positions
    · rw [entries, marks] at split
      obtain ⟨early, late, starts, rfl, second⟩ := List.map_eq_append_iff.mp split
      obtain ⟨p, later, rfl, rfl, rfl⟩ := List.map_eq_cons_iff.mp second
      obtain ⟨earlier, b, others, parts, ⟨largest, inside, above, light⟩, rfl, ends⟩ := cut.split starts
      have finish : (((later.map fun p => (p.1.1, (p.2 : Int))).head?.map Prod.snd).getD s.serialized.length : Int) =
          s.positionAfter (earlier ++ b.elements) := by
        rw [s.positionAfter_eq, ← ends]
        cases later with
        | nil =>
          rw [SSTable.serialized, List.length_append, ← total_encodedSize]
          rfl
        | cons next later => rfl
      refine ⟨earlier, b.elements, others, largest, parts, rfl, (s.positionAfter_eq earlier).symm, finish, inside, above, ?_⟩
      rw [blockEnd, finish, s.positionAfter_eq, Block.total_append]
      simp only
      omega
    · have count := cut.count positive
      rw [total_encodedSize] at count
      rw [SortedMap.size, entries, marks, List.length_map]
      have lengths : (Block.starts encodedSize s.header.length (closed ++ [last])).length = (closed ++ [last]).length :=
        Block.length_starts ..
      exact lengths.trans_le count

end Builders
end SSTableIndex

/-- Whichever way the index of a table is built, by writing the table or by
reading its file, it is fine and small, and covers the table from its first key
to its last. -/
theorem index_fine_and_small {blockSize : UInt32} (positive : 0 < blockSize.toNat) (s : SSTable) (name : FileName)
    (files : Files) :
    (∀ index flushed, flushSSTable blockSize s name files = .ok index flushed →
      index.FineAndSmall blockSize.toNat s ∧ index.Indexes s) ∧
      (files.read name = some s.serialized → s.table.size < 2 ^ 64 →
        ∃ index, loadSSTable blockSize name (some .new) files = .ok (s, some index) files ∧
          index.FineAndSmall blockSize.toNat s ∧ index.Indexes s) := by
  constructor
  · intro index flushed run
    refine ⟨?_, (flushSSTable_spec run).1.indexes⟩
    have write : writeSSTable blockSize s name (files.removeNames (filesWithExt files .deprecated)) =
        .ok index flushed := run
    rw [(writeSSTable_eq ..).2] at write
    split_ifs at write
    cases write
    obtain ⟨_, _, blocked⟩ := serializeIndexed_sized entryType (tryBuildIndex blockSize)
      (SSTableIndex.Blocked blockSize.toNat s Block.elements) (Serializable.metaData.serialize s.metaData)
      s.table.entries .new (.start rfl) fun done e rest size index split blocked => blocked.write positive split
    exact blocked.fineAndSmall positive name
  · intro file fits
    obtain ⟨_, ⟨_, index, rfl, blocked, covers⟩, run⟩ := loadSSTableFrom_sized blockSize
      (fun done size built => ∃ index, built = some index ∧
        SSTableIndex.Blocked blockSize.toNat s Block.rest done size index ∧ index.Covers s done)
      (some .new) fits ⟨.new, rfl, .start rfl, SSTableIndex.covers_new s⟩ (by
        rintro done e rest size _ split ⟨index, rfl, blocked, covers⟩
        exact ⟨_, rfl, blocked.read positive split, covers.step split blockSize _⟩)
    refine ⟨_, ?_, blocked.fineAndSmall positive name, covers.indexes name⟩
    simp only [loadSSTable, getFileStream, file, run, Option.map_some]

/-- Two entries, written with blocks of one byte and read with blocks of the same size. -/
theorem index_fine_and_small_two :
    let s : SSTable := ⟨⟨0⟩, (SortedMap.empty.emplace ⟨.empty⟩ .tombstone).emplace ⟨⟨[107], by decide⟩⟩ .tombstone⟩
    ∃ written flushed read, flushSSTable 1 s (genSSTableFileName 1) ∅ = .ok written flushed ∧
      (written.FineAndSmall 1 s ∧ written.Indexes s) ∧
      loadSSTable 1 (genSSTableFileName 1) (some .new) flushed = .ok (s, some read) flushed ∧
      read.FineAndSmall 1 s ∧ read.Indexes s := by
  intro s
  obtain ⟨written, flushed, run⟩ : ∃ written flushed, flushSSTable 1 s (genSSTableFileName 1) ∅ = .ok written flushed :=
    flushSSTable_total (show s.serialized.length < 2 ^ 63 by decide)
  have positive : 0 < (1 : UInt32).toNat := by decide
  obtain ⟨holds, named, _⟩ := flushSSTable_spec run
  obtain ⟨fine, _⟩ := index_fine_and_small positive s (genSSTableFileName 1) ∅
  obtain ⟨_, load⟩ := index_fine_and_small positive s (genSSTableFileName 1) flushed
  obtain ⟨read, loaded, readFine⟩ := load (named ▸ holds.file) (fits_of_small holds.small)
  exact ⟨written, flushed, read, run, fine written flushed run, loaded, readFine⟩

end ProjectDb
