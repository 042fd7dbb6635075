import ProjectDb.SSTable
import ProjectDb.IndexedLoops

namespace ProjectDb

namespace SSTable

/-- The bytes in front of the first entry of an SSTable file. -/
def header (s : SSTable) : List Byte := Serializable.metaData.serialize s.metaData ++ serializeSize s.table.size

/-- The contents of the file of an SSTable. -/
def serialized (s : SSTable) : List Byte := s.header ++ entriesBytes s.table.entries

/-- The key has an entry, whose encoding starts at the position. -/
def StartsAt (s : SSTable) (key : Key) (pos : Int) : Prop :=
  (∃ value, (key, value) ∈ s.table.entries) ∧
    pos = (s.header ++ entriesBytes (s.table.entries.filter fun e => e.1 < key)).length

theorem startsAt_of_split {s : SSTable} {done rest : List (Key × Value)} {e : Key × Value}
    (split : s.table.entries = done ++ e :: rest) : s.StartsAt e.1 (s.header ++ entriesBytes done).length := by
  refine ⟨⟨e.2, by rw [split]; simp⟩, ?_⟩
  have sorted := s.table.sorted
  rw [split] at sorted ⊢
  rw [SortedMap.filter_before sorted]

theorem serialized_eq (s : SSTable) :
    s.serialized = Serializable.metaData.serialize s.metaData ++ tableType.serialize s.table := by
  rw [serialized, header, tableType_serialize, List.append_assoc]

end SSTable

namespace SSTableIndex

/-- The index of an SSTable: exact positions of some of its keys, the first
and the last among them, and the end of the file. -/
structure Indexes (index : SSTableIndex) (s : SSTable) : Prop where
  exact : ∀ e ∈ index.index.entries, s.StartsAt e.1 e.2
  first : ∀ e, s.table.entries.head? = some e → ∃ pos, (e.1, pos) ∈ index.index.entries
  last : ∀ e, s.table.entries.getLast? = some e → ∃ pos, (e.1, pos) ∈ index.index.entries
  eof : index.eofPos = s.serialized.length

/-- The file of the index holds the SSTable, and a stream kept open reads it. -/
structure Holds (files : Files) (index : SSTableIndex) (s : SSTable) : Prop where
  file : files.read index.ssTableFileName = some s.serialized
  small : s.serialized.length < 2 ^ 63
  indexes : index.Indexes s
  stream : ∀ is, index.ifs = some is → is.content = s.serialized ∧ is.failbit = false

/-- The name of the index changes together with that of its file. -/
theorem Holds.rename {files renamed : Files} {index : SSTableIndex} {s : SSTable} (holds : index.Holds files s)
    {name : FileName} (moved : renamed.read name = files.read index.ssTableFileName) :
    Holds renamed { index with ssTableFileName := name } s :=
  ⟨moved.trans holds.file, holds.small,
    ⟨holds.indexes.exact, holds.indexes.first, holds.indexes.last, holds.indexes.eof⟩, holds.stream⟩

theorem Holds.frame {files other : Files} {index : SSTableIndex} {s : SSTable} (holds : index.Holds files s)
    (same : other.read index.ssTableFileName = files.read index.ssTableFileName) : Holds other index s :=
  holds.rename same

theorem potentialBlockFrom_none {key : Key} {eofPos : Int} {prev : Option Int} {es : List (Key × Int)}
    (sorted : es.Pairwise (fun a b => a.1 < b.1)) (none : potentialBlockFrom key eofPos prev es = none) :
    (∀ e ∈ es, e.1 < key) ∨ prev = Option.none ∧ ∀ e ∈ es, key < e.1 := by
  induction es generalizing prev with
  | nil => exact Or.inl (by simp)
  | cons head rest ih =>
    obtain ⟨above, tail⟩ := List.pairwise_cons.mp sorted
    simp only [potentialBlockFrom] at none
    split_ifs at none with same low
    · right
      refine ⟨by simpa using none, fun e member => ?_⟩
      rcases List.mem_cons.mp member with rfl | later
      · exact low
      · exact low.trans (above e later)
    · have high : head.1 < key := lt_of_le_of_ne (not_lt.mp low) (Ne.symm same)
      rcases ih tail none with rest | ⟨absurd, _⟩
      · exact Or.inl fun e member => (List.mem_cons.mp member).elim (fun same => same ▸ high) (rest e)
      · simp at absurd

/-- A block found runs from an index entry at or below the key to one above
it, or to the end of the file. -/
theorem potentialBlockFrom_some {key : Key} {eofPos : Int} {prev : Option Int} {es : List (Key × Int)}
    {startPos endPos : Int} {at_ : Key → Int → Prop} (sorted : es.Pairwise (fun a b => a.1 < b.1))
    (each : ∀ e ∈ es, at_ e.1 e.2) (before : ∀ pos, prev = some pos → ∃ low, low ≤ key ∧ at_ low pos)
    (found : potentialBlockFrom key eofPos prev es = some (startPos, endPos)) :
    ∃ low, low ≤ key ∧ at_ low startPos ∧ (endPos = eofPos ∨ ∃ high, key < high ∧ at_ high endPos) := by
  induction es generalizing prev with
  | nil => simp [potentialBlockFrom] at found
  | cons head rest ih =>
    obtain ⟨above, tail⟩ := List.pairwise_cons.mp sorted
    have here := each head (List.mem_cons_self ..)
    simp only [potentialBlockFrom] at found
    split_ifs at found with same low
    · simp only [Option.some.injEq, Prod.mk.injEq] at found
      obtain ⟨rfl, rfl⟩ := found
      refine ⟨head.1, same.ge, here, ?_⟩
      cases rest with
      | nil => exact Or.inl rfl
      | cons next rest =>
        exact Or.inr ⟨next.1, same.trans_lt (above next (List.mem_cons_self ..)),
          each next (List.mem_cons_of_mem _ (List.mem_cons_self ..))⟩
    · obtain ⟨pos, known, pair⟩ := Option.map_eq_some_iff.mp found
      cases pair
      obtain ⟨lower, below, starts⟩ := before startPos known
      exact ⟨lower, below, starts, Or.inr ⟨head.1, low, here⟩⟩
    · refine ih tail (fun e member => each e (List.mem_cons_of_mem _ member)) ?_ found
      rintro pos known
      cases known
      exact ⟨head.1, not_lt.mp low, here⟩

/-- The entries of the block contain whatever the table has under the key. -/
theorem block_entries {s : SSTable} {key low : Key} {startPos endPos : Int} (below : low ≤ key)
    (starts : s.StartsAt low startPos)
    (ends : endPos = s.serialized.length ∨ ∃ high, key < high ∧ s.StartsAt high endPos) :
    ∃ before entries after, s.serialized = before ++ entriesBytes entries ++ after ∧
      startPos = before.length ∧ endPos = (before ++ entriesBytes entries).length ∧
      (SortedMap.empty.ofEntries entries : Table).find? key = s.table.find? key := by
  have lower := SortedMap.filter_split s.table.sorted low
  rcases ends with eof | ⟨high, above, stops⟩
  · refine ⟨s.header ++ entriesBytes (s.table.entries.filter fun e => e.1 < low),
      s.table.entries.filter fun e => low ≤ e.1, [], ?_, starts.2, ?_, ?_⟩
    · rw [List.append_nil, List.append_assoc, ← entriesBytes_append, lower, SSTable.serialized]
    · rw [List.append_assoc, ← entriesBytes_append, lower, eof, SSTable.serialized]
    · rw [SortedMap.find?_ofEntries _ (s.table.sorted.filter _), SortedMap.find?_empty, Option.none_or]
      exact SortedMap.findIn_filter (p := fun k => low ≤ k) s.table.sorted (by simpa using below)
  · have upper := SortedMap.filter_split s.table.sorted high
    have sorted : (s.table.entries.filter fun e => e.1 < high).Pairwise (fun a b => a.1 < b.1) :=
      s.table.sorted.filter _
    have inner := SortedMap.filter_split sorted low
    have outside : ((s.table.entries.filter fun e => e.1 < high).filter fun e => e.1 < low) =
        s.table.entries.filter fun e => e.1 < low := by
      rw [List.filter_filter]
      refine List.filter_congr fun e _ => ?_
      rw [Bool.eq_iff_iff]
      simpa using fun less : e.1 < low => less.trans_le (below.trans above.le)
    rw [outside] at inner
    refine ⟨s.header ++ entriesBytes (s.table.entries.filter fun e => e.1 < low),
      (s.table.entries.filter fun e => e.1 < high).filter fun e => low ≤ e.1,
      entriesBytes (s.table.entries.filter fun e => high ≤ e.1), ?_, starts.2, ?_, ?_⟩
    · rw [List.append_assoc s.header, ← entriesBytes_append, inner, List.append_assoc, ← entriesBytes_append,
        upper, SSTable.serialized]
    · rw [List.append_assoc, ← entriesBytes_append, inner]
      exact stops.2
    · rw [SortedMap.find?_ofEntries _ (sorted.filter _), SortedMap.find?_empty, Option.none_or]
      exact (SortedMap.findIn_filter (p := fun k => low ≤ k) sorted (by simpa using below)).trans
        (SortedMap.findIn_filter (p := fun k => k < high) s.table.sorted (by simpa using above))

/-- Without a block the table has no entry for the key. -/
theorem Indexes.absent {index : SSTableIndex} {s : SSTable} (indexes : index.Indexes s) {key : Key}
    (none : index.getPotentialBlockPos key = none) : s.table.find? key = Option.none := by
  rw [SortedMap.find?_eq_none]
  intro value member
  rcases potentialBlockFrom_none index.index.sorted none with below | ⟨_, above⟩
  · obtain ⟨front, last, entries⟩ : ∃ front last, s.table.entries = front ++ [last] :=
      List.eq_nil_or_concat' s.table.entries |>.resolve_left (List.ne_nil_of_mem member)
    obtain ⟨pos, listed⟩ := indexes.last last (by rw [entries]; simp)
    have less := below _ listed
    have sorted := s.table.sorted
    rw [entries] at sorted member
    rcases List.mem_append.mp member with early | late
    · exact lt_asymm less ((List.pairwise_append.mp sorted).2.2 _ early last (List.mem_singleton_self _))
    · obtain rfl := List.mem_singleton.mp late
      exact lt_irrefl _ less
  · obtain ⟨head, rest, entries⟩ := List.exists_cons_of_ne_nil (List.ne_nil_of_mem member)
    obtain ⟨pos, listed⟩ := indexes.first head (by rw [entries]; rfl)
    have less := above _ listed
    have sorted := s.table.sorted
    rw [entries] at sorted member
    rcases List.mem_cons.mp member with early | late
    · rw [← early] at less
      exact lt_irrefl _ less
    · exact lt_asymm less ((List.pairwise_cons.mp sorted).1 _ late)

/-- Decoding the block of a key finds what the whole table has under it. -/
theorem Indexes.decode {index : SSTableIndex} {s : SSTable} (indexes : index.Indexes s) {key : Key}
    {startPos endPos : Int} (found : index.getPotentialBlockPos key = some (startPos, endPos)) (is : IStream)
    (content : is.content = s.serialized) (working : is.failbit = false) :
    ∃ part left, deserializeRange startPos endPos is = .ok part left ∧ part.find? key = s.table.find? key ∧
      left.content = s.serialized ∧ left.failbit = false := by
  obtain ⟨low, below, starts, ends⟩ :=
    potentialBlockFrom_some index.index.sorted indexes.exact (by simp) found
  rw [indexes.eof] at ends
  obtain ⟨before, entries, after, bytes, startEq, endEq, same⟩ := block_entries below starts ends
  subst startEq endEq
  refine ⟨_, _, deserializeRange_spec before after entries is (content.trans bytes) working, same, ?_, rfl⟩
  rw [IStream.content_between, bytes]

theorem Holds.openKept {files : Files} {index : SSTableIndex} {s : SSTable} (holds : index.Holds files s)
    (keepSSTableFileOpen : Bool) : (index.openKept keepSSTableFileOpen files).Holds files s := by
  unfold SSTableIndex.openKept
  split
  · refine ⟨holds.file, holds.small, ⟨holds.indexes.exact, holds.indexes.first, holds.indexes.last, holds.indexes.eof⟩, ?_⟩
    rintro is same
    cases same
    rw [getFileStream, holds.file]
    exact ⟨rfl, rfl⟩
  · exact holds

theorem openKept_name (keepSSTableFileOpen : Bool) (files : Files) (index : SSTableIndex) :
    (index.openKept keepSSTableFileOpen files).ssTableFileName = index.ssTableFileName := by
  unfold SSTableIndex.openKept
  split <;> rfl

/-- `seek` answers as the table itself does, with either way of opening the
file, and leaves the index as good as it was. -/
theorem Holds.seek {files : Files} {index : SSTableIndex} {s : SSTable} (holds : index.Holds files s)
    (keepSSTableFileOpen : Bool) (key : Key) :
    ∃ sought, index.seek keepSSTableFileOpen files key = .ok (s.table.find? key) sought ∧
      sought.ssTableFileName = index.ssTableFileName ∧ sought.Holds files s := by
  have ready := holds.openKept keepSSTableFileOpen
  have name := openKept_name keepSSTableFileOpen files index
  simp only [SSTableIndex.seek]
  generalize index.openKept keepSSTableFileOpen files = self at ready name ⊢
  have fresh : getFileStream files self.ssTableFileName = .between [] s.serialized := by
    rw [getFileStream, ready.file]
  cases block : self.getPotentialBlockPos key with
  | none => exact ⟨self, by rw [ready.indexes.absent block], name, ready⟩
  | some range =>
    obtain ⟨startPos, endPos⟩ := range
    cases keepSSTableFileOpen with
    | false =>
      obtain ⟨part, left, run, same, _⟩ := ready.indexes.decode block (.between [] s.serialized) rfl rfl
      exact ⟨self, by simp only [fresh, run, same, Bool.false_eq_true, if_false], name, ready⟩
    | true =>
      have kept : (self.ifs.getD (.between [] s.serialized)).content = s.serialized ∧
          (self.ifs.getD (.between [] s.serialized)).failbit = false := by
        cases stream : self.ifs with
        | none => exact ⟨rfl, rfl⟩
        | some is => exact ready.stream is stream
      obtain ⟨part, left, run, same, content, working⟩ := ready.indexes.decode block _ kept.1 kept.2
      refine ⟨{ self with ifs := some left }, by simp only [fresh, run, same, if_true], name, ready.file, ready.small,
        ⟨ready.indexes.exact, ready.indexes.first, ready.indexes.last, ready.indexes.eof⟩, ?_⟩
      rintro is equal
      cases equal
      exact ⟨content, working⟩

end SSTableIndex
end ProjectDb
