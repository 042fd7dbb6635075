import ProjectDb.Update

namespace ProjectDb

/-- The tables of a queue, cut as its compaction leaves them: the tables
around the window alone, those of the window in the groups that are merged. -/
def compactionGroups (cfg : Config) (tables : List SSTable) (start count : Nat) : List (List SSTable) :=
  (tables.take start).map ([·]) ++ groupsOfTables cfg ((tables.drop start).take count) ++
    (tables.drop (start + count)).map ([·])

/-- The entries of a key in each group, oldest first. -/
def groupHistories (groups : List (List SSTable)) (key : Key) : List (List Value) :=
  groups.map fun group => history (group.map fun s => s.table.find? key)

theorem lookup_mergeGroup (groups : List (List SSTable)) (key : Key) :
    lookup (groups.map fun group => (mergeGroup group).table) key =
      newestOf ((groups.map fun group => group.map fun s => s.table.find? key).map
        (survivor Value.isTombstoneValue)) := by
  unfold lookup newest
  congr 1
  rw [List.map_map, List.map_map]
  exact List.map_congr_left fun group _ => find?_mergeGroup group key

theorem lookup_flatten (groups : List (List SSTable)) (key : Key) :
    lookup (groups.flatten.map fun s => s.table) key =
      newestOf (groups.map fun group => group.map fun s => s.table.find? key).flatten := by
  unfold lookup newest
  rw [List.map_map, List.map_flatten]
  rfl

/-- Merging groups of tables keeps the newest entry of a key that is live, and
makes none up; a deleted key comes back exactly when it resurfaces. -/
theorem lookup_groups_live {groups : List (List SSTable)} {key : Key} {value : Value}
    (found : lookup (groups.flatten.map fun s => s.table) key = some value)
    (live : value.isTombstoneValue = false) :
    lookup (groups.map fun group => (mergeGroup group).table) key = some value := by
  rw [lookup_mergeGroup]
  exact newestOf_survivors_live _ (lookup_flatten groups key ▸ found) live

theorem lookup_groups_none {groups : List (List SSTable)} {key : Key}
    (absent : lookup (groups.flatten.map fun s => s.table) key = none) :
    lookup (groups.map fun group => (mergeGroup group).table) key = none := by
  rw [lookup_mergeGroup]
  exact newestOf_survivors_none _ (lookup_flatten groups key ▸ absent)

theorem lookup_groups_deleted (groups : List (List SSTable)) (key : Key) :
    (∀ value, lookup (groups.map fun group => (mergeGroup group).table) key = some value →
        value.isTombstoneValue = true) ↔
      ¬ Resurfaces Value.isTombstoneValue (groupHistories groups key) := by
  have resurfaces := newestOf_survivors_iff_resurfaces Value.isTombstoneValue
    (groups.map fun group => group.map fun s => s.table.find? key)
  rw [← lookup_mergeGroup, List.map_map] at resurfaces
  rw [show groupHistories groups key = _ from rfl]
  rw [← not_iff_not, not_not]
  refine Iff.trans ?_ resurfaces
  simp only [not_forall, Bool.not_eq_true, exists_prop]

/-- Every entry of a merged table was one of an input table. -/
theorem mem_mergeGroup {group : List SSTable} {e : Key × Value} (member : e ∈ (mergeGroup group).table.entries) :
    ∃ s ∈ group, e ∈ s.table.entries := by
  have found : (mergeGroup group).table.find? e.1 = some e.2 := SortedMap.find?_eq_some.mpr member
  rw [find?_mergeGroup] at found
  rcases survivor_eq_none_or Value.isTombstoneValue (group.map fun s => s.table.find? e.1) with gone | newest
  · rw [gone] at found
    contradiction
  · obtain ⟨s, inside, answer⟩ := newest_mem (fun (s : SSTable) k => s.table.find? k) (newest.symm.trans found)
    exact ⟨s, inside, SortedMap.find?_eq_some.mp answer⟩

namespace Install

theorem names_rename_sublist {merged : List (List Indexed × SSTableIndex)}
    (named : ∀ m ∈ merged, ∃ first : Indexed, m.1.head? = some first ∧
      m.2.ssTableFileName = genMergedSSTableFileName first.1.ssTableFileName) :
    (namesOf (merged.map rename)).Sublist (namesOf (merged.map Prod.fst).flatten) := by
  induction merged with
  | nil => exact .slnil
  | cons m rest ih =>
    obtain ⟨first, head, name⟩ := named m (List.mem_cons_self ..)
    obtain ⟨tail, group⟩ : ∃ tail, m.1 = first :: tail := ⟨m.1.tail, List.eq_cons_of_mem_head? head⟩
    have later := ih fun m member => named m (List.mem_cons_of_mem _ member)
    have here : (rename m).1.ssTableFileName = first.1.ssTableFileName := by
      rw [rename, name, genMergedSSTableFileName, FileName.removeExt_add]
    simp only [List.map_cons, List.flatten_cons, group, List.cons_append, namesOf, here]
    refine .cons_cons _ (later.trans ?_)
    rw [List.map_append]
    exact List.sublist_append_right _ _

variable {I : Install}

/-- A finished compaction of a window of the queue is ready to be installed. -/
theorem named_of_merged {cfg : Config} {files : Files} (names : RangeNames I.before)
    (groups : I.merged.map Prod.fst = groupsOfRange cfg I.window) (merged : ∀ m ∈ I.merged, Merged files m.1 m.2) :
    I.Named := by
  refine ⟨names, ?_, fun m member => ?_⟩
  · have sublist := names_rename_sublist fun m member => (merged m member).named
    rwa [groups, groupsOfRange_flatten] at sublist
  · obtain ⟨first, _, name⟩ := (merged m member).named
    rw [name, genMergedSSTableFileName, FileName.removeExt_add, genMergedSSTableFileName]

theorem stage_zero {files : Files} (holds : ∀ x ∈ I.before, x.1.Holds files x.2)
    (merged : ∀ m ∈ I.merged, Merged files m.1 m.2) : I.Stage files 0 0 files where
  kept x member := holds x (by simp only [before, List.mem_append] at member ⊢; tauto)
  unmarked x member := holds x (by simp only [before, List.drop_zero, List.mem_append] at member ⊢; tauto)
  renamed := by simp
  pending m member := (merged m (List.mem_of_mem_drop member)).holds
  gone n member unlisted := absurd (by simpa using member) unlisted
  others _ _ _ := rfl
  order := Or.inl rfl

theorem names_after (named : I.Named) : RangeNames I.after := by
  have sublist : (namesOf I.after).Sublist (namesOf I.before) := by
    simp only [after, before, namesOf_append]
    exact (named.firsts.append_left _).append_right _
  refine ⟨fun x member => ?_, named.names.nodup.sublist sublist⟩
  obtain ⟨y, inside, same⟩ := mem_namesOf.mp (sublist.subset (mem_namesOf.mpr ⟨x, member, rfl⟩))
  rw [← same]
  exact named.names.sst y inside

/-- An installed compaction leaves the queue that it has put together. -/
theorem onDisk_after (named : I.Named) {base files : Files}
    (stage : I.Stage base I.window.length I.merged.length files) : OnDisk files (I.after.map Prod.fst) I.after := by
  refine ⟨rfl, fun x member => ?_, names_after named⟩
  have all : I.installed.take I.merged.length = I.installed := List.take_of_length_le (by simp [installed])
  simp only [after, List.mem_append] at member
  rcases member with (low | mid) | high
  · exact stage.kept x (List.mem_append_left _ low)
  · exact stage.renamed x (all.symm ▸ mid)
  · exact stage.kept x (List.mem_append_right _ high)

theorem tables_installed {cfg : Config} (groups : I.merged.map Prod.fst = groupsOfRange cfg I.window) :
    I.installed.map Prod.snd = (groupsOfTables cfg (I.window.map Prod.snd)).map mergeGroup := by
  rw [← groupsOfRange_tables, ← groups, installed, List.map_map, List.map_map, List.map_map]
  rfl

/-- The tables of the new queue are the groups of the old one, merged. -/
theorem tables_after {cfg : Config} (groups : I.merged.map Prod.fst = groupsOfRange cfg I.window) :
    tablesOf I.after =
      (compactionGroups cfg (I.before.map Prod.snd) I.below.length I.window.length).map
        fun group => (mergeGroup group).table := by
  have singles (xs : List Indexed) : tablesOf xs =
      ((xs.map Prod.snd).map ([·])).map fun group => (mergeGroup group).table := by
    rw [List.map_map, List.map_map]
    rfl
  have mid : tablesOf I.installed =
      (groupsOfTables cfg (I.window.map Prod.snd)).map fun group => (mergeGroup group).table := by
    rw [tablesOf_eq, tables_installed groups, List.map_map]
    rfl
  simp only [after, tablesOf_append, mid, compactionGroups, List.map_append]
  rw [singles I.below, singles I.above]
  simp [before, List.drop_append]

end Install

theorem compactionGroups_flatten (cfg : Config) (tables : List SSTable) (start count : Nat) :
    (compactionGroups cfg tables start count).flatten = tables := by
  have singles (ts : List SSTable) : (ts.map ([·])).flatten = ts := by
    induction ts with
    | nil => rfl
    | cons t ts ih => rw [List.map_cons, List.flatten_cons, ih]; rfl
  rw [compactionGroups, List.flatten_append, List.flatten_append, singles, singles, groupsOfTables, groups_flatten,
    ← List.drop_drop, List.append_assoc, List.take_append_drop, List.take_append_drop]

section Launch
variable {cfg : Config} {db launched : ProjectDbImpl} {job : CompactionJob}

/-- The job that works on the window that starts at the index kept for it. -/
def windowJob (cfg : Config) (db : ProjectDbImpl) : CompactionJob :=
  ⟨db.ssTableIndexQueue.compactionStartIndex,
    db.ssTableIndexQueue.compactionStartIndex + cfg.numSSTableToCompact.toNat + 1, .running⟩

/-- A compaction that is launched runs over the window. -/
theorem tryLaunchCompaction_eq (cfg : Config) (db : ProjectDbImpl) :
    SSTableIndexQueue.tryLaunchCompaction cfg db = .ok none db ∨
      cfg.numSSTableToCompact.toNat ≠ 0 ∧
        SSTableIndexQueue.tryLaunchCompaction cfg db = .ok (some (windowJob cfg db)) db := by
  unfold SSTableIndexQueue.tryLaunchCompaction
  simp only [DbM.current, bind, EStateM.bind]
  split_ifs with off few
  · exact Or.inl rfl
  · exact Or.inl rfl
  · exact Or.inr ⟨fun zero => off (UInt32.toNat_inj.mp zero), rfl⟩

/-- The window of a compaction that is launched is inside the queue, as long as
the setting does not turn negative in its cast. -/
theorem windowJob_inside (launch : SSTableIndexQueue.tryLaunchCompaction cfg db = .ok (some job) launched)
    (small : cfg.numSSTableToCompact.toNat < 2 ^ 31) (few : db.ssTableIndexQueue.queue.length ≤ 2 ^ 32)
    (start : db.ssTableIndexQueue.compactionStartIndex = 0 ∨
      db.ssTableIndexQueue.compactionStartIndex < db.ssTableIndexQueue.queue.length) :
    job.endIt ≤ db.ssTableIndexQueue.queue.length := by
  unfold SSTableIndexQueue.tryLaunchCompaction at launch
  simp only [DbM.current, bind, EStateM.bind] at launch
  split_ifs at launch with off few
  · cases launch
  · cases launch
  · cases launch
    have some : cfg.numSSTableToCompact.toNat ≠ 0 := fun zero => off (UInt32.toNat_inj.mp zero)
    simp only [Int.bmod_def] at few ⊢
    omega

theorem tryLaunchCompaction_some (launch : SSTableIndexQueue.tryLaunchCompaction cfg db = .ok (some job) launched) :
    launched = db ∧ cfg.numSSTableToCompact.toNat ≠ 0 ∧ job = windowJob cfg db := by
  rcases tryLaunchCompaction_eq cfg db with none | ⟨positive, some⟩
  · rw [none] at launch
    cases launch
  · rw [some] at launch
    cases launch
    exact ⟨rfl, positive, rfl⟩

/-- A compaction job that returns leaves what `update` needs to install it. -/
theorem compact_spec {xs : List Indexed} {out : List SSTableIndex} {files : Files}
    (onDisk : OnDisk db.files db.ssTableIndexQueue.queue xs) (within : job.beginIt ≤ job.endIt)
    (run : SSTableIndexQueue.compact cfg job db = .ok out files) :
    ∃ I : Install, I.before = xs ∧ I.below.length = job.beginIt ∧ I.window.length = job.endIt - job.beginIt ∧
      I.merged.map Prod.snd = out ∧ I.merged.map Prod.fst = groupsOfRange cfg I.window ∧ I.merged ≠ [] ∧
      (∀ m ∈ I.merged, Merged files m.1 m.2) ∧ KeepsOthers I.window db.files files := by
  unfold SSTableIndexQueue.compact at run
  split_ifs at run with inside
  rw [← onDisk.queue, ← List.map_drop, ← List.map_take] at run
  rw [← onDisk.queue, List.length_map] at inside
  have part : ((xs.drop job.beginIt).take (job.endIt - job.beginIt)).Sublist xs :=
    (List.take_sublist _ _).trans (List.drop_sublist _ _)
  obtain ⟨two, merged, groups, result, all, keeps⟩ := mergeSSTables_spec
    (fun x member => onDisk.holds x (part.subset member)) (onDisk.names.sublist part) run
  refine ⟨⟨xs.take job.beginIt, (xs.drop job.beginIt).take (job.endIt - job.beginIt), xs.drop job.endIt, merged⟩,
    ?_, ?_, ?_, result, groups, ?_, all, keeps⟩
  · have later : xs.drop job.endIt = (xs.drop job.beginIt).drop (job.endIt - job.beginIt) := by
      rw [List.drop_drop]
      congr 1
      omega
    simp only [Install.before, later, List.append_assoc, List.take_append_drop]
  · simp only [List.length_take]
    omega
  · simp only [List.length_take, List.length_drop]
    omega
  · rintro rfl
    have flat := groupsOfRange_flatten cfg ((xs.drop job.beginIt).take (job.endIt - job.beginIt))
    rw [← groups] at flat
    rw [← flat] at two
    simp at two

/-- A compaction job over a window inside the queue throws only when a merged
file cannot be written; over any other window its iterators are invalid. -/
theorem compact_error {xs : List Indexed} {e : Exn} {files : Files}
    (onDisk : OnDisk db.files db.ssTableIndexQueue.queue xs) (wide : job.beginIt + 2 ≤ job.endIt)
    (run : SSTableIndexQueue.compact cfg job db = .error e files) :
    StreamFailure e ∨ db.ssTableIndexQueue.queue.length < job.endIt ∧ e = .undefined := by
  unfold SSTableIndexQueue.compact at run
  split_ifs at run with inside
  · rw [← onDisk.queue, ← List.map_drop, ← List.map_take] at run
    rw [← onDisk.queue, List.length_map] at inside
    have part : ((xs.drop job.beginIt).take (job.endIt - job.beginIt)).Sublist xs :=
      (List.take_sublist _ _).trans (List.drop_sublist _ _)
    refine Or.inl (mergeSSTables_error ?_ (fun x member => onDisk.holds x (part.subset member))
      (onDisk.names.sublist part) run)
    simp only [List.length_take, List.length_drop]
    omega
  · cases run
    exact Or.inr ⟨by omega, rfl⟩

/-- Alone, `update` installs a finished compaction in any queue that is on disk. -/
theorem update_run {I : Install} {files : Files} (onDisk : OnDisk db.files db.ssTableIndexQueue.queue I.before)
    (start : db.ssTableIndexQueue.compactionStartIndex = I.below.length)
    (wide : I.window.length = cfg.numSSTableToCompact.toNat + 1) (positive : cfg.numSSTableToCompact.toNat ≠ 0)
    (groups : I.merged.map Prod.fst = groupsOfRange cfg I.window) (some : I.merged ≠ [])
    (merged : ∀ m ∈ I.merged, Merged files m.1 m.2) (keeps : KeepsOthers I.window db.files files) :
    ∃ updated, (SSTableIndexQueue.update cfg (I.merged.map Prod.snd)).run { db with files := files } =
        .ok () updated ∧ OnDisk updated.files updated.ssTableIndexQueue.queue I.after := by
  have named := Install.named_of_merged onDisk.names groups merged
  have holds : ∀ x ∈ I.before, x.1.Holds files x.2 := fun x member =>
    keeps.holds (onDisk.names.sst x member) (onDisk.holds x member)
  have alone : Undisturbed (fun _ _ => False) fun _ => True := ⟨fun _ _ _ step => step.elim, fun _ _ _ _ _ => trivial⟩
  have ready : I.At files (fun _ => True) 0 0 ⟨I.before.map Prod.fst, I.below.length⟩ { db with files := files } := by
    refine ⟨trivial, Install.stage_zero holds merged, ?_⟩
    rw [onDisk.queue, ← start]
  obtain ⟨_, updated, run, done⟩ := (Install.update_safe named alone wide positive some ready).returns
  refine ⟨updated, run, ?_⟩
  rw [done.queue]
  exact Install.onDisk_after named done.stage

end Launch

end ProjectDb
