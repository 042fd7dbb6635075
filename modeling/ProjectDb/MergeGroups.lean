import ProjectDb.SSTableMerge
import ProjectDb.Foundation.Prog

namespace ProjectDb

/-- The size of the files that a group of tables is merged from. -/
def inputSize : List Indexed → Nat
  | [] => 0
  | x :: group => x.2.fileSize + inputSize group

theorem inputSize_append (group : List Indexed) (next : Indexed) :
    inputSize (group ++ [next]) = inputSize group + next.2.fileSize := by
  induction group with
  | nil => simp [inputSize]
  | cons x group ih =>
    rw [List.cons_append, inputSize, inputSize, ih]
    omega

/-- Consecutive groups of a range, each but the last with at least two tables
whose files exceed the limit together. -/
structure CutsInto (cfg : Config) (range : List Indexed) (parts : List (List Indexed)) : Prop where
  flatten : parts.flatten = range
  nonempty : ∀ group ∈ parts, group ≠ []
  full : ∀ group ∈ parts.dropLast,
    2 ≤ group.length ∧ cfg.ssTableApproximateMaxSizeInBytes.toNat < inputSize group

/-- As long as the group is open, `currTableSize` is the sum of its file
sizes: at most the limit, to which one more file of at most 63 bits is added. -/
theorem addFileSize_sum {cfg : Config} {size : Nat} {group : List Indexed} {next : Indexed}
    (opened : group.length = 1 ∨ cfg.exceedsMaxSize size = false)
    (sum : (∀ x ∈ group, x.2.fileSize < 2 ^ 63) → size = inputSize group)
    (small : ∀ x ∈ group ++ [next], x.2.fileSize < 2 ^ 63) :
    addFileSize size next.2 = inputSize (group ++ [next]) := by
  have total := sum fun x member => small x (List.mem_append_left _ member)
  have last := small next (List.mem_append_right _ (List.mem_singleton_self _))
  have limit := cfg.ssTableApproximateMaxSizeInBytes.toNat_lt
  have below : size < 2 ^ 63 := by
    rcases opened with single | notFull
    · obtain ⟨only, rfl⟩ := List.length_eq_one_iff.mp single
      have least := small only (by simp)
      simp only [inputSize] at total
      omega
    · have bound : size ≤ cfg.ssTableApproximateMaxSizeInBytes.toNat := not_lt.mp (of_decide_eq_false notFull)
      omega
  have grown := inputSize_append group next
  unfold addFileSize
  omega

/-- The groups of `mergeSSTables` cut the range. -/
theorem groupsOfRange_cuts (cfg : Config) {range : List Indexed} (small : ∀ x ∈ range, x.2.fileSize < 2 ^ 63) :
    CutsInto cfg range (groupsOfRange cfg range) where
  flatten := groupsOfRange_flatten cfg range
  nonempty := groups_some _ _ _ range
  full group member := by
    obtain ⟨two, size, sum, isFull⟩ := groups_closed (fun x : Indexed => x.2.fileSize)
      (fun size x => addFileSize size x.2) cfg.exceedsMaxSize
      (P := fun size group => (∀ x ∈ group, x.2.fileSize < 2 ^ 63) → size = inputSize group)
      (by simp [inputSize]) (fun size group next opened sum => addFileSize_sum opened sum) range group member
    have inside : ∀ x ∈ group, x ∈ range := fun x listed => by
      rw [← groupsOfRange_flatten cfg range]
      exact List.mem_flatten.mpr ⟨group, List.mem_of_mem_dropLast member, listed⟩
    refine ⟨two, ?_⟩
    rw [← sum fun x listed => small x (inside x listed)]
    exact of_decide_eq_true isFull

/-- `mergeSSTables` uses every table of its range once, in order: it returns
one merged table for each group, or a group is too large for one file. -/
theorem mergeSSTables_groups {cfg : Config} {range : List Indexed} {files : Files} (two : 2 ≤ range.length)
    (holds : ∀ x ∈ range, x.1.Holds files x.2) (names : RangeNames range) :
    ∃ parts, CutsInto cfg range parts ∧
      ((∃ out after, mergeSSTables cfg (range.map Prod.fst) files = .ok out after ∧ out ≠ [] ∧
          List.Forall₂ (Merged after) parts out) ∨
        ∃ e after, mergeSSTables cfg (range.map Prod.fst) files = .error e after ∧ StreamFailure e ∧
          ∃ group ∈ parts, Oversized group) := by
  refine ⟨groupsOfRange cfg range, groupsOfRange_cuts cfg fun x member => (holds x member).small, ?_⟩
  cases run : mergeSSTables cfg (range.map Prod.fst) files with
  | error e after => exact Or.inr ⟨e, after, rfl, mergeSSTables_oversized two holds names run⟩
  | ok out after =>
    obtain ⟨_, merged, groups, rfl, all, _⟩ := mergeSSTables_spec holds names run
    refine Or.inl ⟨_, after, rfl, ?_, ?_⟩
    · intro none
      have flat := groupsOfRange_flatten cfg range
      rw [List.map_eq_nil_iff.mp none] at groups
      rw [← groups] at flat
      simp only [List.map_nil, List.flatten_nil] at flat
      rw [← flat] at two
      contradiction
    · rw [← groups, List.forall₂_map_left_iff, List.forall₂_map_right_iff, List.forall₂_same]
      exact all

section Samples

/-- Write tables to SSTable files with counters from the given one on. -/
def writeTables (blockSize : UInt32) : (counter : Nat) → List SSTable → FileM (List SSTableIndex)
  | _, [] => pure []
  | counter, s :: rest => do
    let index ← writeSSTable blockSize s (genSSTableFileName counter)
    let indexes ← writeTables blockSize (counter + 1) rest
    pure (index :: indexes)

theorem writeTables_spec {blockSize : UInt32} {counter : Nat} {tables : List SSTable} {files written : Files}
    {indexes : List SSTableIndex} (run : writeTables blockSize counter tables files = .ok indexes written) :
    ∃ xs : List Indexed, xs.map Prod.fst = indexes ∧ xs.map Prod.snd = tables ∧ (∀ x ∈ xs, x.1.Holds written x.2) ∧
      RangeNames xs ∧ (∀ x ∈ xs, counter ≤ x.1.ssTableFileName.counter) ∧
      ∀ n : FileName, n.counter < counter → written.read n = files.read n := by
  induction tables generalizing counter files indexes with
  | nil =>
    cases run
    exact ⟨[], rfl, rfl, by simp, ⟨by simp, by simp⟩, by simp, fun _ _ => rfl⟩
  | cons s rest ih =>
    obtain ⟨index, flushed, write, run⟩ := EStateM.bind_eq_ok run
    obtain ⟨others, later, more, run⟩ := EStateM.bind_eq_ok run
    cases run
    obtain ⟨holds, named, rfl⟩ := writeSSTable_spec write
    obtain ⟨xs, queue, tables, all, names, above, keeps⟩ := ih more
    have sst : index.ssTableFileName.extension = some .sst := by rw [named]; rfl
    have counted : index.ssTableFileName.counter = counter := by rw [named]; rfl
    refine ⟨(index, s) :: xs, by rw [List.map_cons, queue], by rw [List.map_cons, tables], ?_, ⟨?_, ?_⟩, ?_, ?_⟩
    · intro x member
      rcases List.mem_cons.mp member with rfl | member
      · exact holds.frame (keeps _ (by rw [counted]; omega))
      · exact all x member
    · intro x member
      rcases List.mem_cons.mp member with rfl | member
      · exact sst
      · exact names.sst x member
    · refine List.nodup_cons.mpr ⟨fun listed => ?_, names.nodup⟩
      obtain ⟨x, member, same⟩ := List.mem_map.mp listed
      have later := above x member
      simp only [same] at later
      omega
    · intro x member
      rcases List.mem_cons.mp member with rfl | member
      · exact counted.ge
      · exact (Nat.le_succ counter).trans (above x member)
    · intro n low
      rw [keeps n (by omega), Directory.read_write, if_neg]
      rintro rfl
      exact lt_irrefl _ low

def sampleKey : StdString := ⟨[107], by decide⟩
def otherKey : StdString := ⟨[97], by decide⟩
def oldValue : Value := .ofString ⟨[48], by decide⟩
def newValue : Value := .ofString ⟨[49], by decide⟩

/-- One key is set, set again and removed, with another key between. -/
def sampleTables : List SSTable :=
  [⟨⟨0⟩, SortedMap.empty.emplace ⟨sampleKey⟩ oldValue⟩, ⟨⟨0⟩, SortedMap.empty.emplace ⟨otherKey⟩ newValue⟩,
    ⟨⟨0⟩, SortedMap.empty.emplace ⟨sampleKey⟩ newValue⟩, ⟨⟨0⟩, SortedMap.empty.emplace ⟨sampleKey⟩ .tombstone⟩]

/-- All four tables are compacted, two in each group. -/
def sampleConfig : Config :=
  { Config.default with ssTableApproximateMaxSizeInBytes := 0, numSSTableToCompact := 3 }

/-- Three of the tables, in files, and what is merged of them: two tables. -/
theorem exists_merged_files : ∃ (range : List Indexed) (files after : Files) (out : List SSTableIndex),
    range.map Prod.snd = sampleTables.tail ∧ (∀ x ∈ range, x.1.Holds files x.2) ∧ RangeNames range ∧
      mergeSSTables sampleConfig (range.map Prod.fst) files = .ok out after ∧ out.length = 2 := by
  have computed : ((writeTables 0 1 sampleTables.tail ∅).ok?.bind fun written =>
      (mergeSSTables sampleConfig written.1 written.2).ok?.map fun merged => merged.1.length) = some 2 := by decide +kernel
  obtain ⟨⟨indexes, files⟩, written, rest⟩ := Option.bind_eq_some_iff.mp computed
  obtain ⟨⟨out, after⟩, merged, two⟩ := Option.map_eq_some_iff.mp rest
  obtain ⟨range, rfl, tables, holds, names, _⟩ := writeTables_spec (EStateM.Result.ok?_eq_some.mp written)
  exact ⟨range, files, after, out, tables, holds, names, EStateM.Result.ok?_eq_some.mp merged, two⟩

/-- The first two of three tables are over the limit together, and the third is left alone. -/
theorem mergeSSTables_groups_three : ∃ (range : List Indexed) (files after : Files) (parts : List (List Indexed))
    (out : List SSTableIndex), range.map Prod.snd = sampleTables.tail ∧ CutsInto sampleConfig range parts ∧
      parts.length = 2 ∧ mergeSSTables sampleConfig (range.map Prod.fst) files = .ok out after ∧
      List.Forall₂ (Merged after) parts out := by
  obtain ⟨range, files, after, out, tables, holds, names, run, two⟩ := exists_merged_files
  have three : range.length = 3 := by simpa [sampleTables] using congrArg List.length tables
  obtain ⟨parts, cuts, ⟨_, _, again, _, merged⟩ | ⟨e, _, failed, _⟩⟩ :=
    @mergeSSTables_groups sampleConfig range files (by omega) holds names
  · obtain ⟨rfl, rfl⟩ := EStateM.Result.ok.inj (run.symm.trans again)
    exact ⟨range, files, after, parts, out, tables, cuts, merged.length_eq.trans two, run, merged⟩
  · rw [run] at failed
    contradiction

end Samples

end ProjectDb
