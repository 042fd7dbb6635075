import ProjectDb.Compaction
import ProjectDb.MergeGroups

namespace ProjectDb

section Answers
variable {cfg : Config} {db : ProjectDbImpl} {merged : List SSTableIndex} {files : Files} {xs : List Indexed}

/-- The job and `update` together: the queue ends with the groups of its
tables, merged. -/
theorem compaction_installed (onDisk : OnDisk db.files db.ssTableIndexQueue.queue xs)
    (positive : cfg.numSSTableToCompact.toNat ≠ 0)
    (merge : SSTableIndexQueue.compact cfg (windowJob cfg db) db = .ok merged files) :
    ∃ I : Install, I.before = xs ∧ I.below.length = db.ssTableIndexQueue.compactionStartIndex ∧
      I.window.length = cfg.numSSTableToCompact.toNat + 1 ∧ I.merged.map Prod.snd = merged ∧
      I.merged.map Prod.fst = groupsOfRange cfg I.window ∧ (∀ m ∈ I.merged, Merged files m.1 m.2) ∧
      ∃ updated, (SSTableIndexQueue.update cfg merged).run { db with files := files } = .ok () updated ∧
        OnDisk updated.files updated.ssTableIndexQueue.queue I.after := by
  have within : (windowJob cfg db).beginIt ≤ (windowJob cfg db).endIt := by simp only [windowJob]; omega
  obtain ⟨I, rfl, start, wide, rfl, groups, some, all, keeps⟩ := compact_spec onDisk within merge
  simp only [windowJob] at start wide
  obtain ⟨updated, run, installed⟩ := update_run onDisk start.symm (by omega) positive groups some all keeps
  exact ⟨I, rfl, start, by omega, rfl, groups, all, updated, run, installed⟩

end Answers

section Samples

/-- A database that has nothing but SSTables. -/
def ofTables (tables : List SSTable) : ProjectDbImpl :=
  match writeTables 0 1 tables ∅ with
  | .ok indexes files => { ProjectDbImpl.fresh files 0 0 0 with ssTableIndexQueue := ⟨indexes, 0⟩ }
  | .error _ files => ProjectDbImpl.fresh files 0 0 0

theorem ofTables_onDisk (tables : List SSTable) (written : (ofTables tables).ssTableIndexQueue.queue ≠ []) :
    ∃ xs, OnDisk (ofTables tables).files (ofTables tables).ssTableIndexQueue.queue xs ∧ xs.map Prod.snd = tables := by
  unfold ofTables at written ⊢
  cases run : writeTables 0 1 tables ∅ with
  | ok indexes files =>
    obtain ⟨xs, queue, same, holds, names, _⟩ := writeTables_spec run
    exact ⟨xs, ⟨queue, holds, names⟩, same⟩
  | error e files =>
    rw [run] at written
    exact absurd rfl written

/-- Let a compaction finish, install it and look a key up. -/
def compactAndGet (cfg : Config) (db : ProjectDbImpl) (key : StdString) : Option (Option Value) := do
  let (merged, files) ← (SSTableIndexQueue.compact cfg (windowJob cfg db) db).ok?
  let (_, updated) ← ((SSTableIndexQueue.update cfg merged).run { db with files := files }).ok?
  let (answer, _) ← (SSTableIndexQueue.get cfg key updated).ok?
  pure answer

theorem compactAndGet_some {cfg : Config} {db : ProjectDbImpl} {key : StdString} {answer : Option Value}
    (run : compactAndGet cfg db key = some answer) :
    ∃ merged files updated after, SSTableIndexQueue.compact cfg (windowJob cfg db) db = .ok merged files ∧
      (SSTableIndexQueue.update cfg merged).run { db with files := files } = .ok () updated ∧
      SSTableIndexQueue.get cfg key updated = .ok answer after := by
  simp only [compactAndGet, Option.bind_eq_bind, Option.bind_eq_some_iff, Prod.exists, EStateM.Result.ok?_eq_some,
    Option.pure_def, Option.some.injEq] at run
  obtain ⟨merged, files, merge, _, updated, update, found, after, get, rfl⟩ := run
  exact ⟨merged, files, updated, after, merge, update, get⟩

/-- All of the four tables are in the window. -/
theorem sample_launch : SSTableIndexQueue.tryLaunchCompaction sampleConfig (ofTables sampleTables) =
    .ok (some (windowJob sampleConfig (ofTables sampleTables))) (ofTables sampleTables) := by
  have length : (ofTables sampleTables).ssTableIndexQueue.queue.length = 4 := by decide +kernel
  have start : (ofTables sampleTables).ssTableIndexQueue.compactionStartIndex = 0 := by decide +kernel
  simp only [SSTableIndexQueue.tryLaunchCompaction, DbM.current, bind, EStateM.bind, length, start, windowJob]
  rw [if_neg (by decide), if_neg (by decide)]
  rfl

end Samples

section Answers
variable {cfg : Config} {db : ProjectDbImpl} {merged : List SSTableIndex} {files : Files} {xs : List Indexed}

/-- A compaction of any window keeps the newest entry of every key that is
live and finds no entry where there was none. The entries of each merged table
were entries of the tables of its group. -/
theorem compaction_keeps_live (onDisk : OnDisk db.files db.ssTableIndexQueue.queue xs)
    (positive : cfg.numSSTableToCompact.toNat ≠ 0)
    (merge : SSTableIndexQueue.compact cfg (windowJob cfg db) db = .ok merged files) :
    ∃ updated, (SSTableIndexQueue.update cfg merged).run { db with files := files } = .ok () updated ∧
      (∀ key value, lookup (tablesOf xs) ⟨key⟩ = some value → value.isTombstoneValue = false →
        ∃ after, SSTableIndexQueue.get cfg key updated = .ok (some value) after) ∧
      (∀ key, lookup (tablesOf xs) ⟨key⟩ = none →
        ∃ after, SSTableIndexQueue.get cfg key updated = .ok none after) ∧
      ∃ groups : List (List Indexed),
        groups.flatten = (xs.drop db.ssTableIndexQueue.compactionStartIndex).take
          (cfg.numSSTableToCompact.toNat + 1) ∧
        List.Forall₂ (fun group index => ∃ s : SSTable, index.Holds files s ∧
          ∀ e ∈ s.table.entries, ∃ x ∈ group, e ∈ x.2.table.entries) groups merged := by
  obtain ⟨I, rfl, start, wide, rfl, groups, all, updated, run, installed⟩ :=
    compaction_installed onDisk positive merge
  have tables := Install.tables_after groups
  have flat : (compactionGroups cfg (I.before.map Prod.snd) I.below.length I.window.length).flatten.map
      (fun s => s.table) = tablesOf I.before := by rw [compactionGroups_flatten, tablesOf_eq]
  refine ⟨updated, run, fun key value found live => ?_, fun key absent => ?_, I.merged.map Prod.fst, ?_, ?_⟩
  · obtain ⟨_, answer, _⟩ := SSTableIndexQueue.get_spec cfg installed key
    rw [tables, lookup_groups_live (flat ▸ found) live] at answer
    exact ⟨_, answer⟩
  · obtain ⟨_, answer, _⟩ := SSTableIndexQueue.get_spec cfg installed key
    rw [tables, lookup_groups_none (flat ▸ absent)] at answer
    exact ⟨_, answer⟩
  · rw [groups, groupsOfRange_flatten, ← start, ← wide]
    simp [Install.before]
  · rw [List.forall₂_map_left_iff, List.forall₂_map_right_iff, List.forall₂_same]
    intro m member
    refine ⟨_, (all m member).holds, fun e inside => ?_⟩
    obtain ⟨s, input, entry⟩ := mem_mergeGroup inside
    obtain ⟨x, listed, rfl⟩ := List.mem_map.mp input
    exact ⟨x, listed, entry⟩

/-- The key that is not removed keeps its value. -/
theorem compaction_keeps_live_sample : ∃ updated after,
    SSTableIndexQueue.get sampleConfig otherKey updated = .ok (some newValue) after := by
  obtain ⟨xs, onDisk, tables⟩ := ofTables_onDisk sampleTables (by decide +kernel)
  obtain ⟨merged, files, _, _, merge, _⟩ :=
    compactAndGet_some (show compactAndGet sampleConfig (ofTables sampleTables) otherKey = some (some newValue) by
      decide +kernel)
  obtain ⟨updated, _, live, _⟩ := compaction_keeps_live onDisk (by decide) merge
  refine ⟨updated, live otherKey newValue ?_ rfl⟩
  rw [tablesOf_eq, tables]
  decide +kernel

/-- When a compaction has been launched and its result is installed, a deleted
key stays without a live value exactly when none of its older values
resurfaces from the groups. -/
theorem compaction_keeps_deleted_iff {launched : ProjectDbImpl} {job : CompactionJob}
    (onDisk : OnDisk db.files db.ssTableIndexQueue.queue xs)
    (launch : SSTableIndexQueue.tryLaunchCompaction cfg db = .ok (some job) launched)
    (merge : SSTableIndexQueue.compact cfg job launched = .ok merged files) :
    ∃ updated, (SSTableIndexQueue.update cfg merged).run { launched with files := files } = .ok () updated ∧
      ∀ key value, lookup (tablesOf xs) ⟨key⟩ = some value → value.isTombstoneValue = true →
        ((∃ answer after, SSTableIndexQueue.get cfg key updated = .ok answer after ∧
            ∀ found, answer = some found → found.isTombstoneValue = true) ↔
          ¬ Resurfaces Value.isTombstoneValue (groupHistories (compactionGroups cfg (xs.map Prod.snd)
            db.ssTableIndexQueue.compactionStartIndex (cfg.numSSTableToCompact.toNat + 1)) ⟨key⟩)) := by
  obtain ⟨rfl, positive, rfl⟩ := tryLaunchCompaction_some launch
  obtain ⟨I, rfl, start, wide, rfl, groups, all, updated, run, installed⟩ :=
    compaction_installed onDisk positive merge
  refine ⟨updated, run, fun key value _ _ => ?_⟩
  obtain ⟨_, answer, _⟩ := SSTableIndexQueue.get_spec cfg installed key
  rw [Install.tables_after groups] at answer
  rw [← start, ← wide, ← lookup_groups_deleted]
  constructor
  · rintro ⟨found, after, same, dead⟩
    rw [answer] at same
    cases same
    exact dead
  · exact fun dead => ⟨_, _, answer, dead⟩

/-- The value that was first set comes back for the removed key: its group lies
below the one in which the second value and the tombstone cancel out. -/
theorem compaction_resurrects : ∃ job launched merged files updated after, ∃ xs : List Indexed,
    OnDisk (ofTables sampleTables).files (ofTables sampleTables).ssTableIndexQueue.queue xs ∧
    lookup (tablesOf xs) ⟨sampleKey⟩ = some .tombstone ∧
    SSTableIndexQueue.tryLaunchCompaction sampleConfig (ofTables sampleTables) = .ok (some job) launched ∧
    SSTableIndexQueue.compact sampleConfig job launched = .ok merged files ∧
    (SSTableIndexQueue.update sampleConfig merged).run { launched with files := files } = .ok () updated ∧
    SSTableIndexQueue.get sampleConfig sampleKey updated = .ok (some oldValue) after := by
  obtain ⟨xs, onDisk, tables⟩ := ofTables_onDisk sampleTables (by decide +kernel)
  obtain ⟨merged, files, updated, after, all⟩ :=
    compactAndGet_some (show compactAndGet sampleConfig (ofTables sampleTables) sampleKey = some (some oldValue) by
      decide +kernel)
  refine ⟨_, _, merged, files, updated, after, xs, onDisk, ?_, sample_launch, all⟩
  rw [tablesOf_eq, tables]
  decide +kernel

theorem compaction_keeps_deleted_sample :
    Resurfaces Value.isTombstoneValue (groupHistories (compactionGroups sampleConfig sampleTables 0 4) ⟨sampleKey⟩) := by
  obtain ⟨xs, onDisk, tables⟩ := ofTables_onDisk sampleTables (by decide +kernel)
  obtain ⟨merged, files, updated, after, merge, update, get⟩ :=
    compactAndGet_some (show compactAndGet sampleConfig (ofTables sampleTables) sampleKey = some (some oldValue) by
      decide +kernel)
  obtain ⟨same, run, iff⟩ := compaction_keeps_deleted_iff onDisk sample_launch merge
  have start : (ofTables sampleTables).ssTableIndexQueue.compactionStartIndex = 0 := by decide +kernel
  have deleted : lookup (tablesOf xs) ⟨sampleKey⟩ = some .tombstone := by
    rw [tablesOf_eq, tables]
    decide +kernel
  rw [update] at run
  cases run
  have resurfaces := (iff sampleKey .tombstone deleted rfl).not.mp
  rw [not_not, tables, start] at resurfaces
  refine resurfaces ?_
  rintro ⟨answer, after, found, dead⟩
  rw [get] at found
  cases found
  exact absurd (dead oldValue rfl) (by decide)

end Answers
end ProjectDb
