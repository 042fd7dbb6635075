import Mathlib.Data.List.Dedup
import ProjectDb.QueueRuns
import ProjectDb.SessionAnswers

namespace ProjectDb

section Surviving

/-- The keys of the tables of a group. -/
def keysOf (group : List SSTable) : List Key := (group.flatMap fun s => s.table.entries.map Prod.fst).dedup

/-- The entry that is left of a key when the tables of a group are merged. -/
def survivingEntry (group : List SSTable) (key : Key) : Option (Key × Value) :=
  (survivor Value.isTombstoneValue (group.map fun s => s.table.find? key)).map (key, ·)

/-- The size of a file with the entries of a group that survive: twenty bytes
for each beside its key and its value, and sixteen bytes in front of them. -/
def survivingSize (group : List SSTable) : Nat :=
  16 + (entriesBytes ((keysOf group).filterMap (survivingEntry group))).length

theorem mem_survivingEntries {group : List SSTable} {e : Key × Value} :
    e ∈ (keysOf group).filterMap (survivingEntry group) ↔ e ∈ (mergeGroup group).table.entries := by
  obtain ⟨key, value⟩ := e
  have found : (key, value) ∈ (mergeGroup group).table.entries ↔
      survivor Value.isTombstoneValue (group.map fun s => s.table.find? key) = some value := by
    rw [← find?_mergeGroup, SortedMap.find?_eq_some]
  simp only [List.mem_filterMap, survivingEntry, Option.map_eq_some_iff, Prod.mk.injEq]
  constructor
  · rintro ⟨_, _, _, survives, rfl, rfl⟩
    exact found.mpr survives
  · intro member
    obtain ⟨s, input, listed⟩ := mem_mergeGroup member
    refine ⟨key, List.mem_dedup.mpr (List.mem_flatMap.mpr ⟨s, input, ?_⟩), value, found.mp member, rfl, rfl⟩
    exact List.mem_map_of_mem listed

/-- The file of a merged group has the size of the entries that survive. -/
theorem fileSize_mergeGroup (group : List SSTable) : (mergeGroup group).fileSize = survivingSize group := by
  have entries : ((keysOf group).filterMap (survivingEntry group)).Perm (mergeGroup group).table.entries := by
    refine (List.perm_ext_iff_of_nodup ?_ ?_).mpr fun e => mem_survivingEntries
    · refine (List.nodup_dedup _).filterMap fun first second e one two => ?_
      simp only [survivingEntry, Option.mem_def, Option.map_eq_some_iff] at one two
      obtain ⟨_, _, rfl⟩ := one
      obtain ⟨_, _, same⟩ := two
      exact (congrArg Prod.fst same).symm
    · exact (mergeGroup group).table.sorted.imp fun below same => (below.trans_eq (congrArg Prod.fst same.symm)).false
  rw [fileSize_eq, survivingSize]
  exact congrArg (16 + ·) (entries.flatMap_right _).length_eq.symm

end Surviving

/-- In every group of the window but the last one enough entries survive for a
file that is larger than the limit. -/
def StaysFull (cfg : Config) (tables : List SSTable) (start : Nat) : Prop :=
  ∀ group ∈ (groupsOfTables cfg (windowOf cfg tables start)).dropLast,
    cfg.ssTableApproximateMaxSizeInBytes.toNat < survivingSize group

instance (cfg : Config) (tables : List SSTable) (start : Nat) : Decidable (StaysFull cfg tables start) :=
  inferInstanceAs (Decidable (∀ group ∈ _, _))

/-- The tables before the start index have files larger than the limit. -/
structure FullQueue (cfg : Config) (queue : List SSTable × Nat) : Prop where
  inside : queue.2 ≤ queue.1.length
  full : ∀ s ∈ queue.1.take queue.2, cfg.ssTableApproximateMaxSizeInBytes.toNat < s.fileSize

variable {cfg : Config} {fmt : LogFormat}

/-- A window inside of the queue is cut into one group at least. -/
theorem groupsOfTables_window {tables : List SSTable} {start : Nat}
    (inside : start + cfg.numSSTableToCompact.toNat < tables.length) :
    0 < (groupsOfTables cfg (windowOf cfg tables start)).length := by
  by_contra none
  have flat : (groupsOfTables cfg (windowOf cfg tables start)).flatten = windowOf cfg tables start :=
    groups_flatten _ _ _ _
  have length : (windowOf cfg tables start).length = cfg.numSSTableToCompact.toNat + 1 := by
    rw [windowOf, List.length_take, List.length_drop]
    omega
  rw [← flat, List.eq_nil_of_length_eq_zero (Nat.eq_zero_of_not_pos none)] at length
  contradiction

/-- The start index moves past all merged tables but the last one. -/
theorem take_afterCompaction {tables : List SSTable} {start : Nat}
    (inside : start + cfg.numSSTableToCompact.toNat < tables.length) :
    (afterCompaction cfg tables start).2 ≤ (afterCompaction cfg tables start).1.length ∧
      (afterCompaction cfg tables start).1.take (afterCompaction cfg tables start).2 =
        tables.take start ++ (groupsOfTables cfg (windowOf cfg tables start)).dropLast.map mergeGroup := by
  have count := groupsOfTables_window inside
  unfold afterCompaction
  generalize groupsOfTables cfg (windowOf cfg tables start) = groups at count ⊢
  have below : (tables.take start).length = start := by
    rw [List.length_take]
    omega
  have move : start + groups.length - 1 = (tables.take start).length + (groups.length - 1) := by omega
  have short : groups.length - 1 ≤ (groups.map mergeGroup).length := by
    rw [List.length_map]
    omega
  constructor
  · simp only [List.length_append, List.length_map, below]
    omega
  · rw [move, List.append_assoc, List.take_length_add_append, List.take_append_of_le_length short, List.map_dropLast,
      List.dropLast_eq_take, List.length_map]

theorem FullQueue.step {queue next : List SSTable × Nat} (full : FullQueue cfg queue)
    (step : QueueStep cfg (StaysFull cfg) queue next) : FullQueue cfg next := by
  cases step with
  | hand tables start s =>
    have inside : start ≤ tables.length := full.inside
    refine ⟨?_, ?_⟩
    · rw [List.length_append]
      exact inside.trans (Nat.le_add_right _ _)
    · rw [List.take_append_of_le_length inside]
      exact full.full
  | @compact tables start stays inside =>
    obtain ⟨within, passed⟩ := take_afterCompaction inside
    refine ⟨within, fun s member => ?_⟩
    rw [passed] at member
    rcases List.mem_append.mp member with old | new
    · exact full.full s old
    · obtain ⟨group, cut, rfl⟩ := List.mem_map.mp new
      rw [fileSize_mergeGroup]
      exact stays group cut

theorem FullQueue.run {queue next : List SSTable × Nat} (full : FullQueue cfg queue)
    (run : QueueRun cfg (StaysFull cfg) queue next) : FullQueue cfg next := by
  induction run with
  | refl => exact full
  | tail _ step ih => exact ih.step step

namespace ProjectDbImpl
variable {start db : ProjectDbImpl}

section Opening

theorem reloadSSTables_start (names : List FileName) (s : ProjectDbImpl) :
    startIndex ((reloadSSTables cfg names).left s) = startIndex s := by
  induction names generalizing s with
  | nil => rfl
  | cons name rest ih =>
    refine EStateM.left_bind_same (EStateM.left_bind_same ?_ fun loaded t _ => ?_) fun _ t _ => ih t
    · exact file_left _ startIndex s fun _ => rfl
    · obtain ⟨table, index⟩ := loaded
      cases index <;> rfl

theorem pushFromTransactionLog_start (name : FileName) (last : Bool) (s : ProjectDbImpl) :
    startIndex ((MemTableQueue.pushFromTransactionLog fmt name last).left s) = startIndex s := by
  refine EStateM.left_bind_same ?_ fun table t _ => EStateM.left_bind_same rfl fun memTable t _ =>
    EStateM.left_bind_same (EStateM.left_bind_same ?_ fun _ _ _ => rfl) fun writter t _ =>
      EStateM.left_bind_same rfl fun _ t _ => ?_
  · unfold EStateM.left MemTableQueue.loadTransactionLog
    cases fmt.load name (getFileStream s.files name) <;> rfl
  · exact file_left _ startIndex t fun _ => rfl
  · cases last <;> rfl

theorem reloadTransactionLogs_start (names : List FileName) (s : ProjectDbImpl) :
    startIndex ((reloadTransactionLogs fmt names).left s) = startIndex s := by
  induction names generalizing s with
  | nil => rfl
  | cons name rest ih =>
    refine EStateM.left_bind_same (pushFromTransactionLog_start name rest.isEmpty s) fun job t _ => ?_
    cases job with
    | none => exact ih t
    | some job => exact EStateM.left_bind_same rfl fun _ t _ => ih t

theorem counterAfter_start (names : List FileName) (base : Nat) (s : ProjectDbImpl) :
    startIndex ((counterAfter names base).left s) = startIndex s := by
  unfold counterAfter
  cases names.getLast? with
  | none => rfl
  | some last =>
    dsimp only
    cases getCounterFromFileName last <;> rfl

theorem reload_start (s : ProjectDbImpl) : startIndex ((reload cfg fmt).left s) = startIndex s := by
  refine EStateM.left_bind_same (file_left _ startIndex s fun _ => rfl) fun ssTableFiles t _ => ?_
  refine EStateM.left_bind_same (reloadSSTables_start ssTableFiles t) fun _ t _ => ?_
  refine EStateM.left_bind_same rfl fun now t _ => ?_
  refine EStateM.left_bind_same (counterAfter_start ssTableFiles _ t) fun counter t _ => ?_
  refine EStateM.left_bind_same rfl fun _ t _ => ?_
  refine EStateM.left_bind_same (file_left _ startIndex t fun _ => rfl) fun transactionLogFiles t _ => ?_
  refine EStateM.left_bind_same (reloadTransactionLogs_start transactionLogFiles t) fun _ t _ => ?_
  refine EStateM.left_bind_same rfl fun now t _ => ?_
  exact EStateM.left_bind_same (counterAfter_start transactionLogFiles _ t) fun counter t _ => rfl

theorem removeFilesWithExt_start (ext : FileExt) : (removeFilesWithExt ext).Keeps startIndex := by
  refine (Prog.Keeps.read _).bind fun names => ?_
  induction names with
  | nil => trivial
  | cons name rest ih => exact (Prog.Keeps.atomic fun s => file_left _ startIndex s fun _ => rfl).bind fun _ => ih

theorem init_start : (init cfg fmt).Keeps startIndex :=
  (removeFilesWithExt_start _).bind fun _ => (removeFilesWithExt_start _).bind fun _ =>
    (removeFilesWithExt_start _).bind fun _ => Prog.Keeps.atomic reload_start

/-- A database that has just been opened compacts from the first table on. -/
theorem Opened.start_zero {permit : List SSTable → Nat → Prop} {files : Files}
    (opened : Opened cfg fmt permit files start) : startIndex start = 0 := by
  obtain ⟨now, ssTableBase, transactionLogBase, _, _, path⟩ := opened
  exact init_start.reaches (fun _ _ => Others.startIndex) path

end Opening

/-- Every element of the queue before the start index has a file that is larger
than the limit. -/
def FullBelowStart (cfg : Config) (db : ProjectDbImpl) : Prop :=
  ∀ index ∈ db.ssTableIndexQueue.queue.take db.ssTableIndexQueue.compactionStartIndex,
    ∃ bytes, db.files.read index.ssTableFileName = some bytes ∧
      cfg.ssTableApproximateMaxSizeInBytes.toNat < bytes.length

/-- In a session whose compactions stay full the start index passes over full
tables only. -/
theorem full_below_start {files : Files} {tables : List (Nat × SSTable)} {logs : List (Nat × List Byte)}
    {events : List Event} (disk : Disk files tables logs) (opened : Opened cfg fmt (StaysFull cfg) files start)
    (session : Session cfg fmt (StaysFull cfg) start events db) : FullBelowStart cfg db := by
  obtain ⟨memory, loads⟩ := opened.loads disk
  obtain ⟨xs, _, inv⟩ := opened.on disk loads
  obtain ⟨v, ⟨now, _⟩, run⟩ := session.queueRun inv (openedView_settled xs logs memory)
  have first : FullQueue cfg (tablesAndStart (openedView xs logs memory) start) := by
    have zero : start.ssTableIndexQueue.compactionStartIndex = 0 := opened.start_zero
    rw [tablesAndStart, zero]
    exact ⟨Nat.zero_le _, by simp⟩
  intro index member
  rw [← now.shelved.queue, ← List.map_take] at member
  obtain ⟨x, listed, rfl⟩ := List.mem_map.mp member
  refine ⟨_, (now.shelved.holds x (List.mem_append_left _ (List.mem_of_mem_take listed))).file, ?_⟩
  refine (first.run run).full x.2 ?_
  rw [tablesAndStart, ← List.map_take]
  exact List.mem_map_of_mem listed

/-- Two SSTables of 38 bytes are over the limit. -/
def limitedConfig : Config := { sessionConfig with ssTableApproximateMaxSizeInBytes := 40 }

/-- The entries of two keys are left of the first two SSTables, in a file of 60 bytes. -/
theorem full_below_start_sample : ∃ events db,
    Session limitedConfig transactionLog (StaysFull limitedConfig) (opened limitedConfig transactionLog) events db ∧
      ((db.ssTableIndexQueue.queue.take db.ssTableIndexQueue.compactionStartIndex).map fun index =>
        (db.files.read index.ssTableFileName).map List.length) = [some 60] ∧ FullBelowStart limitedConfig db := by
  have played : (play limitedConfig transactionLog (opened limitedConfig transactionLog) harmlessScript).map
      (fun result => (result.2.ssTableIndexQueue.queue.take (startIndex result.2)).map fun index =>
        (result.2.files.read index.ssTableFileName).map List.length) = some [some 60] := by decide +kernel
  obtain ⟨⟨events, db⟩, run, sizes⟩ := Option.map_eq_some_iff.mp played
  have session : Session limitedConfig transactionLog (StaysFull limitedConfig)
      (opened limitedConfig transactionLog) events db := play_session .opened (by decide +kernel) run
  exact ⟨events, db, session, sizes, full_below_start disk_empty opened_opened session⟩

/-- One key is written four times, and the four SSTables are compacted in groups of two. -/
def overwritingScript : List Move :=
  [.call (.set sampleKey oldString), .flush 0, .call (.set sampleKey newString), .flush 0,
    .call (.set sampleKey oldString), .flush 0, .call (.set sampleKey newString), .flush 0, .call (.get sampleKey),
    .compaction, .call (.get sampleKey)]

/-- Two files are merged to one that is not larger than the limit. -/
theorem passes_over_small : ∃ events db,
    Opened limitedConfig transactionLog anyCompaction ∅ (opened limitedConfig transactionLog) ∧
      Session limitedConfig transactionLog anyCompaction (opened limitedConfig transactionLog) events db ∧
      ¬ FullBelowStart limitedConfig db := by
  have played : (play limitedConfig transactionLog (opened limitedConfig transactionLog) overwritingScript).map
      (fun result => (result.2.ssTableIndexQueue.queue.take (startIndex result.2)).map fun index =>
        (result.2.files.read index.ssTableFileName).map List.length) = some [some 38] := by decide +kernel
  obtain ⟨⟨events, db⟩, run, sizes⟩ := Option.map_eq_some_iff.mp played
  have session : Session limitedConfig transactionLog anyCompaction (opened limitedConfig transactionLog)
      events db := play_session .opened (permitted_of fun _ _ _ => trivial) run
  refine ⟨events, db, opened_opened, session, fun full => ?_⟩
  obtain ⟨index, split, size⟩ := List.map_eq_singleton_iff.mp sizes
  obtain ⟨bytes, read, large⟩ := full index (split ▸ List.mem_singleton_self index)
  have limit : limitedConfig.ssTableApproximateMaxSizeInBytes.toNat = 40 := by decide
  dsimp only at size
  rw [read, Option.map_some, Option.some.injEq] at size
  omega

end ProjectDbImpl
end ProjectDb
