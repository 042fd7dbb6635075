import ProjectDb.SSTableFiles
import ProjectDb.Config
import ProjectDb.Foundation.Grouping
import ProjectDb.Foundation.Layers

namespace ProjectDb

/-- The loops of `mergeSSTable` over the entries that are left of both tables. -/
def mergeEntries (mergedTable : Table) : List (Key × Value) → List (Key × Value) → Table
  | [], new => mergedTable.ofEntries new
  | old, [] => mergedTable.ofEntries old
  | o :: old, n :: new =>
    if o.1 < n.1 then mergeEntries (mergedTable.emplace o.1 o.2) old (n :: new)
    else if n.1 < o.1 then mergeEntries (mergedTable.emplace n.1 n.2) (o :: old) new
    else
      mergeEntries (if !n.2.isTombstoneValue then mergedTable.emplace n.1 n.2 else mergedTable) old new
termination_by old new => old.length + new.length

/-- Merge two tables; the meta data of the result is the initial one. -/
def mergeSSTable (oldSSTable newSSTable : SSTable) : SSTable :=
  ⟨⟨0⟩, mergeEntries .empty oldSSTable.table.entries newSSTable.table.entries⟩

def loadSized (cfg : Config) (index : SSTableIndex) : FileM (SSTable × Nat) := do
  let (table, _) ← loadSSTable cfg.ssTableIndexBlockSizeInBytes index.ssTableFileName none
  let size ← getFileSizeInBytes index.ssTableFileName
  pure (table, size)

/-- Load the next table and merge it to the current one. -/
def mergeNext (cfg : Config) (currTable : SSTable) (currTableSize : Nat) (next : SSTableIndex) :
    FileM (SSTable × Nat) := do
  let (nextTable, size) ← loadSized cfg next
  pure (mergeSSTable currTable nextTable, (currTableSize + size) % 2 ^ 64)

/-- The loop of `mergeSSTables`, with what is left of the range after `next`. -/
def mergeLoop (cfg : Config) (currSSTableFileName : FileName) (currTable : SSTable) (currTableSize : Nat)
    (rtn : List SSTableIndex) (next : SSTableIndex) : (left : List SSTableIndex) → FileM (List SSTableIndex)
  | [] => do
    let (currTable, _) ← mergeNext cfg currTable currTableSize next
    let merged ← flushSSTable cfg.ssTableIndexBlockSizeInBytes currTable (genMergedSSTableFileName currSSTableFileName)
    pure (rtn ++ [merged])
  | curr :: rest => do
    let (currTable, currTableSize) ← mergeNext cfg currTable currTableSize next
    if cfg.ssTableApproximateMaxSizeInBytes.toNat < currTableSize then
      let merged ← flushSSTable cfg.ssTableIndexBlockSizeInBytes currTable (genMergedSSTableFileName currSSTableFileName)
      let (currTable, currTableSize) ← loadSized cfg curr
      match rest with
      | [] =>
        let last ← flushSSTable cfg.ssTableIndexBlockSizeInBytes currTable
          (genMergedSSTableFileName curr.ssTableFileName)
        pure (rtn ++ [merged] ++ [last])
      | next :: rest => mergeLoop cfg curr.ssTableFileName currTable currTableSize (rtn ++ [merged]) next rest
    else mergeLoop cfg currSSTableFileName currTable currTableSize rtn curr rest
termination_by left => left.length

/-- Merge the SSTables of a range of the queue into fewer, larger ones. -/
def mergeSSTables (cfg : Config) (range : List SSTableIndex) : FileM (List SSTableIndex) := do
  removeFilesWithExt .deprecated
  match range with
  | [] => throw .undefined
  | [_] => throw (.dbException ("Only one element to merge! This should not happen when " ++
      "NUM_SSTABLE_TO_COMPACT > 0!"))
  | curr :: next :: rest =>
    let (currTable, currTableSize) ← loadSized cfg curr
    mergeLoop cfg curr.ssTableFileName currTable currTableSize [] next rest

/-- The two-pointer merge, key by key. -/
theorem find?_mergeEntries (merged : Table) {old new : List (Key × Value)}
    (oldSorted : old.Pairwise fun a b => a.1 < b.1) (newSorted : new.Pairwise fun a b => a.1 < b.1) (x : Key) :
    (mergeEntries merged old new).find? x = (merged.find? x).or
      (mergeAnswer Value.isTombstoneValue (SortedMap.findIn (· < ·) x old) (SortedMap.findIn (· < ·) x new)) := by
  fun_induction mergeEntries merged old new with
  | case1 merged new =>
    rw [SortedMap.find?_ofEntries _ newSorted]
    cases SortedMap.findIn (· < ·) x new <;> rfl
  | case2 merged old nonempty =>
    rw [SortedMap.find?_ofEntries _ oldSorted]
    rfl
  | case3 merged o old n new below ih =>
    obtain ⟨above, tail⟩ := List.pairwise_cons.mp oldSorted
    rw [ih tail newSorted, SortedMap.find?_emplace, Option.or_assoc]
    congr 1
    rcases lt_trichotomy x o.1 with low | rfl | high
    · have absent := SortedMap.findIn_below fun e member => low.trans (above e member)
      simp [SortedMap.findIn, low, low.ne, absent]
    · have absent := SortedMap.findIn_below above
      simp [SortedMap.findIn, below, absent, mergeAnswer]
    · simp [SortedMap.findIn, high, high.not_gt, high.ne']
  | case4 merged o old n new notBelow below ih =>
    obtain ⟨above, tail⟩ := List.pairwise_cons.mp newSorted
    rw [ih oldSorted tail, SortedMap.find?_emplace, Option.or_assoc]
    congr 1
    rcases lt_trichotomy x n.1 with low | rfl | high
    · have absent := SortedMap.findIn_below fun e member => low.trans (above e member)
      simp [SortedMap.findIn, low, low.ne, absent]
    · have absent := SortedMap.findIn_below above
      simp [SortedMap.findIn, below, absent, mergeAnswer]
    · simp [SortedMap.findIn, high, high.not_gt, high.ne']
  | case5 merged o old n new notBelow notAbove ih =>
    obtain ⟨oldAbove, oldTail⟩ := List.pairwise_cons.mp oldSorted
    obtain ⟨newAbove, newTail⟩ := List.pairwise_cons.mp newSorted
    have same : n.1 = o.1 := le_antisymm (not_lt.mp notBelow) (not_lt.mp notAbove)
    simp only [dite_eq_ite] at ih
    rw [ih oldTail newTail]
    rcases lt_trichotomy x o.1 with low | rfl | high
    · have oldAbsent := SortedMap.findIn_below fun e member => low.trans (oldAbove e member)
      have newAbsent := SortedMap.findIn_below fun e member => (low.trans_eq same.symm).trans (newAbove e member)
      split_ifs <;> simp [SortedMap.findIn, low, low.ne, same, oldAbsent, newAbsent]
    · have oldAbsent := SortedMap.findIn_below oldAbove
      have newAbsent := SortedMap.findIn_below (same ▸ newAbove)
      split_ifs with live <;> simp_all [SortedMap.findIn, mergeAnswer]
    · split_ifs <;> simp [SortedMap.findIn, high, high.not_gt, high.ne', same]

theorem find?_mergeSSTable (old new : SSTable) (key : Key) :
    (mergeSSTable old new).table.find? key =
      mergeAnswer Value.isTombstoneValue (old.table.find? key) (new.table.find? key) := by
  rw [mergeSSTable, find?_mergeEntries _ old.table.sorted new.table.sorted]
  rfl

/-- What the merge holds at a key, by what the two tables hold there. -/
theorem mergeSSTable_pointwise (oldSSTable newSSTable : SSTable) (k : Key) :
    (mergeSSTable oldSSTable newSSTable).table.find? k =
      match oldSSTable.table.find? k, newSSTable.table.find? k with
      | some old, none => some old
      | none, some new => some new
      | some _, some new => if new.isTombstoneValue then none else some new
      | none, none => none := by
  rw [find?_mergeSSTable]
  cases oldSSTable.table.find? k with
  | none => cases newSSTable.table.find? k <;> rfl
  | some old => cases newSSTable.table.find? k <;> rfl

/-- What is left when a group of tables, oldest first, is merged. -/
def mergeGroup : List SSTable → SSTable
  | [] => ⟨⟨0⟩, .empty⟩
  | oldest :: newer => newer.foldl mergeSSTable oldest

theorem find?_mergeGroup (group : List SSTable) (key : Key) :
    (mergeGroup group).table.find? key =
      survivor Value.isTombstoneValue (group.map fun s => s.table.find? key) := by
  have fold (newer : List SSTable) (s : SSTable) : (newer.foldl mergeSSTable s).table.find? key =
      (newer.map fun s => s.table.find? key).foldl (mergeAnswer Value.isTombstoneValue) (s.table.find? key) := by
    induction newer generalizing s with
    | nil => rfl
    | cons next newer ih => rw [List.foldl_cons, ih, find?_mergeSSTable]; rfl
  cases group with
  | nil => rfl
  | cons oldest newer =>
    rw [mergeGroup, fold, survivor, List.map_cons, List.foldl_cons]
    cases oldest.table.find? key <;> rfl

def SSTable.fileSize (s : SSTable) : Nat := s.serialized.length

/-- Sixteen bytes stand in front of the entries. -/
theorem fileSize_eq (s : SSTable) : s.fileSize = 16 + (entriesBytes s.table.entries).length := by
  have header : s.header.length = 16 := by
    simp only [SSTable.header, List.length_append, length_serializeSize]
    rfl
  rw [SSTable.fileSize, SSTable.serialized, List.length_append, header]

/-- `currTableSize` after one more table. -/
def addFileSize (currTableSize : Nat) (s : SSTable) : Nat := (currTableSize + s.fileSize) % 2 ^ 64

def Config.exceedsMaxSize (cfg : Config) (currTableSize : Nat) : Bool :=
  cfg.ssTableApproximateMaxSizeInBytes.toNat < currTableSize

/-- How `mergeSSTables` cuts a range of tables, by the sizes of their files. -/
def groupsOfTables (cfg : Config) (range : List SSTable) : List (List SSTable) :=
  groups SSTable.fileSize addFileSize cfg.exceedsMaxSize range

end ProjectDb
