import ProjectDb.MergeGroups
import Mathlib.Algebra.Order.BigOperators.Group.List
import Mathlib.Algebra.Order.Group.Nat

namespace ProjectDb

/-- Whatever entries weigh, those of the merge of two tables weigh no more
than those of the tables. -/
theorem sum_mergeEntries_le (weight : Key × Value → Nat) (merged : Table) (old new : List (Key × Value)) :
    ((mergeEntries merged old new).entries.map weight).sum ≤
      (merged.entries.map weight).sum + (old.map weight).sum + (new.map weight).sum := by
  fun_induction mergeEntries merged old new with
  | case1 merged new =>
    have added := SortedMap.sum_ofEntries_le weight merged new
    simpa using added
  | case2 merged old nonempty =>
    have added := SortedMap.sum_ofEntries_le weight merged old
    simpa using added
  | case3 merged o old n new below ih =>
    have added := SortedMap.sum_emplace_le weight merged o
    simp only [List.map_cons, List.sum_cons] at ih ⊢
    omega
  | case4 merged o old n new notBelow below ih =>
    have added := SortedMap.sum_emplace_le weight merged n
    simp only [List.map_cons, List.sum_cons] at ih ⊢
    omega
  | case5 merged o old n new notBelow notAbove ih =>
    have added := SortedMap.sum_emplace_le weight merged n
    simp only [dite_eq_ite, List.map_cons, List.sum_cons] at ih ⊢
    split_ifs at ih ⊢
    · omega
    · omega

/-- The bytes in front of the entries are written once for both tables. -/
theorem fileSize_mergeSSTable (old new : SSTable) : (mergeSSTable old new).fileSize + 16 ≤ old.fileSize + new.fileSize := by
  have bytes := sum_mergeEntries_le (fun e => (entryType.serialize e).length) .empty old.table.entries new.table.entries
  simp only [SortedMap.entries_empty, List.map_nil, List.sum_nil, Nat.zero_add] at bytes
  simp only [fileSize_eq, entriesBytes, List.length_flatMap, mergeSSTable]
  omega

theorem size_mergeSSTable (old new : SSTable) :
    (mergeSSTable old new).table.size ≤ old.table.size + new.table.size := by
  have count := sum_mergeEntries_le (fun _ => 1) .empty old.table.entries new.table.entries
  simpa [mergeSSTable, SortedMap.size] using count

/-- Merging a group saves sixteen bytes for every table but one. -/
theorem fileSize_mergeGroup_le (oldest : SSTable) (newer : List SSTable) :
    (mergeGroup (oldest :: newer)).fileSize + 16 * newer.length ≤ ((oldest :: newer).map SSTable.fileSize).sum := by
  rw [mergeGroup]
  induction newer generalizing oldest with
  | nil => simp
  | cons next newer ih =>
    have rest := ih (mergeSSTable oldest next)
    have first := fileSize_mergeSSTable oldest next
    simp only [List.foldl_cons, List.map_cons, List.sum_cons, List.length_cons] at rest ⊢
    omega

theorem size_mergeGroup_le (oldest : SSTable) (newer : List SSTable) :
    (mergeGroup (oldest :: newer)).table.size ≤ ((oldest :: newer).map fun s => s.table.size).sum := by
  rw [mergeGroup]
  induction newer generalizing oldest with
  | nil => simp
  | cons next newer ih =>
    have rest := ih (mergeSSTable oldest next)
    have first := size_mergeSSTable oldest next
    simp only [List.foldl_cons, List.map_cons, List.sum_cons] at rest ⊢
    omega

/-- A range of two or more has a group of two or more. -/
theorem CutsInto.two {cfg : Config} {range : List Indexed} {parts : List (List Indexed)} (cuts : CutsInto cfg range parts)
    (two : 2 ≤ range.length) : ∃ group ∈ parts, 2 ≤ group.length := by
  match parts, cuts with
  | [], cuts =>
    have flat := cuts.flatten
    simp only [List.flatten_nil] at flat
    rw [← flat] at two
    contradiction
  | [group], cuts =>
    have flat := cuts.flatten
    simp only [List.flatten_singleton] at flat
    exact ⟨group, List.mem_singleton_self _, flat ▸ two⟩
  | group :: next :: rest, cuts => exact ⟨group, by simp, (cuts.full group (by simp)).1⟩

section Groups
variable {cfg : Config} {range : List Indexed} {parts : List (List Indexed)} (cuts : CutsInto cfg range parts)
include cuts

theorem CutsInto.sum (measure : SSTable → Nat) :
    (parts.map fun group => (group.map fun x => measure x.2).sum).sum = (range.map fun x => measure x.2).sum := by
  rw [← cuts.flatten, List.map_flatten, List.sum_flatten, List.map_map]
  rfl

theorem CutsInto.fileSize_lt (two : 2 ≤ range.length) :
    (parts.map fun group => (mergeGroup (group.map Prod.snd)).fileSize).sum <
      (range.map fun x => x.2.fileSize).sum := by
  rw [← cuts.sum]
  have least (group : List Indexed) (member : group ∈ parts) : (mergeGroup (group.map Prod.snd)).fileSize +
      16 * (group.length - 1) ≤ (group.map fun x => x.2.fileSize).sum := by
    obtain ⟨oldest, newer, rfl⟩ := List.exists_cons_of_ne_nil (cuts.nonempty group member)
    have merged := fileSize_mergeGroup_le oldest.2 (newer.map Prod.snd)
    simpa [Function.comp_def] using merged
  refine List.sum_lt_sum _ _ (fun group member => (Nat.le_add_right _ _).trans (least group member)) ?_
  obtain ⟨group, member, more⟩ := cuts.two two
  have saved := least group member
  exact ⟨group, member, by omega⟩

theorem CutsInto.size_le :
    (parts.map fun group => (mergeGroup (group.map Prod.snd)).table.size).sum ≤
      (range.map fun x => x.2.table.size).sum := by
  rw [← cuts.sum fun s => s.table.size]
  refine List.sum_le_sum fun group member => ?_
  obtain ⟨oldest, newer, rfl⟩ := List.exists_cons_of_ne_nil (cuts.nonempty group member)
  have merged := size_mergeGroup_le oldest.2 (newer.map Prod.snd)
  simpa [Function.comp_def] using merged

end Groups

/-- The bytes that the files of some tables take. -/
def sizeOnDisk (files : Files) (indexes : List SSTableIndex) : Nat :=
  (indexes.map fun index => ((files.read index.ssTableFileName).getD []).length).sum

theorem sizeOnDisk_eq {files : Files} {xs : List Indexed} (holds : ∀ x ∈ xs, x.1.Holds files x.2) :
    sizeOnDisk files (xs.map Prod.fst) = (xs.map fun x => x.2.fileSize).sum := by
  rw [sizeOnDisk, List.map_map]
  refine congrArg List.sum (List.map_congr_left fun x member => ?_)
  simp only [Function.comp_apply, (holds x member).file]
  rfl

/-- `mergeSSTables` writes less than it has read, and no more entries, or a
group is too large for one file. -/
theorem mergeSSTables_shrinks {cfg : Config} {range : List Indexed} {files : Files} (two : 2 ≤ range.length)
    (holds : ∀ x ∈ range, x.1.Holds files x.2) (names : RangeNames range) :
    (∃ (written : List Indexed) (after : Files), mergeSSTables cfg (range.map Prod.fst) files = .ok (written.map Prod.fst) after ∧
        (∀ x ∈ written, x.1.Holds after x.2) ∧
        sizeOnDisk after (written.map Prod.fst) < sizeOnDisk files (range.map Prod.fst) ∧
        (written.map fun x => x.2.table.size).sum ≤ (range.map fun x => x.2.table.size).sum) ∨
      ∃ e after, mergeSSTables cfg (range.map Prod.fst) files = .error e after ∧ StreamFailure e ∧
        ∃ group ∈ groupsOfRange cfg range, Oversized group := by
  cases run : mergeSSTables cfg (range.map Prod.fst) files with
  | error e after => exact Or.inr ⟨e, after, rfl, mergeSSTables_oversized two holds names run⟩
  | ok out after =>
    obtain ⟨_, merged, groups, rfl, all, _⟩ := mergeSSTables_spec holds names run
    have cuts := groupsOfRange_cuts cfg fun x member => (holds x member).small
    rw [← groups] at cuts
    have bytes := cuts.fileSize_lt two
    have entries := cuts.size_le
    rw [List.map_map] at bytes entries
    have written : ∀ x ∈ merged.map (fun m => (m.2, mergeGroup (m.1.map Prod.snd))), x.1.Holds after x.2 := by
      intro x member
      obtain ⟨m, listed, rfl⟩ := List.mem_map.mp member
      exact (all m listed).holds
    refine Or.inl ⟨_, after, ?_, written, ?_, ?_⟩
    · rw [List.map_map]
      rfl
    · rw [sizeOnDisk_eq written, sizeOnDisk_eq holds, List.map_map]
      exact bytes
    · rw [List.map_map]
      exact entries

/-- Three files with one entry each become two. -/
theorem mergeSSTables_shrinks_three : ∃ (range written : List Indexed) (files after : Files),
    range.map Prod.snd = sampleTables.tail ∧
      mergeSSTables sampleConfig (range.map Prod.fst) files = .ok (written.map Prod.fst) after ∧ written.length = 2 ∧
      sizeOnDisk files (range.map Prod.fst) = 113 ∧ sizeOnDisk after (written.map Prod.fst) < 113 ∧
      (written.map fun x => x.2.table.size).sum ≤ 3 := by
  obtain ⟨range, files, after, out, tables, holds, names, run, two⟩ := exists_merged_files
  have three : range.length = 3 := by simpa [sampleTables] using congrArg List.length tables
  have size : sizeOnDisk files (range.map Prod.fst) = 113 := by
    have sizes : (range.map fun x => x.2.fileSize) = sampleTables.tail.map SSTable.fileSize := by
      rw [← tables, List.map_map]
      rfl
    rw [sizeOnDisk_eq holds, sizes]
    decide +kernel
  have entries : (range.map fun x => x.2.table.size) = [1, 1, 1] := by
    have counts : (range.map fun x => x.2.table.size) = sampleTables.tail.map fun s => s.table.size := by
      rw [← tables, List.map_map]
      rfl
    rw [counts]
    decide +kernel
  rcases @mergeSSTables_shrinks sampleConfig range files (by omega) holds names with
    ⟨written, _, again, _, less, fewer⟩ | ⟨e, _, failed, _⟩
  · obtain ⟨rfl, rfl⟩ := EStateM.Result.ok.inj (run.symm.trans again)
    rw [entries] at fewer
    rw [List.length_map] at two
    exact ⟨range, written, files, after, tables, run, two, size, size ▸ less, fewer⟩
  · rw [run] at failed
    contradiction

end ProjectDb
