import ProjectDb.Reload
import ProjectDb.CompactionCheck

namespace ProjectDb
namespace ProjectDbImpl

variable {cfg : Config} {fmt : LogFormat} {permit : List SSTable → Nat → Prop}

/-- The view of a database that has just been opened. -/
def openedView (xs : List Indexed) (logs : List (Nat × List Byte)) (memory : List Table) : View :=
  ⟨xs, [], logs, memory, [], 0⟩

section Loaded
variable {base db : ProjectDbImpl} {xs : List Indexed} {logs : List (Nat × List Byte)} {memory : List Table}

theorem Loading.pending (loading : Loading base logs memory (logs.length - 1) db) :
    db.pendingJobs (openedView xs logs memory) = (List.range (logs.length - 1)).map (reloadedJob base) := by
  rw [pendingJobs, loading.futures]
  rfl

theorem Loading.flushing (loading : Loading base logs memory (logs.length - 1) db)
    (order : (xs.map counterOf).Pairwise (· < ·)) (below : ∀ x ∈ xs, counterOf x ≤ base.ssTableFileCounterBase) :
    Flushing (openedView xs logs memory) db := by
  have counters : ((List.range (logs.length - 1)).map (reloadedJob base)).map (·.fileName.counter) =
      (List.range (logs.length - 1)).map fun i => base.ssTableFileCounterBase + i + 1 := by
    rw [List.map_map]
    rfl
  have shelf : (openedView xs logs memory).shelf = xs := List.append_nil _
  refine ⟨Nat.zero_le _, by simp [openedView], ?_, ?_, ?_, loading.memory, by simp [openedView], ?_, ?_, ?_, ?_⟩
  · have addresses := congrArg List.dropLast loading.addresses
    rw [← List.map_dropLast] at addresses
    rw [loading.futures, addresses, List.map_map, List.dropLast_eq_take, List.length_range, List.take_range,
      Nat.min_eq_left (Nat.sub_le _ _)]
    exact List.map_id _
  · rw [loading.addresses]
    exact List.nodup_range
  · intro e member
    have listed : e.1.table ∈ List.range logs.length := by
      rw [← loading.addresses]
      exact List.mem_map_of_mem member
    rw [loading.nextTable]
    exact List.mem_range.mp listed
  · rw [loading.pending]
    intro job member
    obtain ⟨i, _, rfl⟩ := List.mem_map.mp member
    exact Or.inl rfl
  · rw [loading.pending]
    intro job member
    obtain ⟨i, _, rfl⟩ := List.mem_map.mp member
    rfl
  · rw [loading.pending, counters, shelf]
    refine List.pairwise_append.mpr ⟨order, ?_, ?_⟩
    · exact List.pairwise_map.mpr (List.pairwise_lt_range.imp fun less => by omega)
    · intro c old d new
      obtain ⟨x, member, rfl⟩ := List.mem_map.mp old
      obtain ⟨i, _, rfl⟩ := List.mem_map.mp new
      have := below x member
      omega
  · rw [loading.pending, counters, shelf, loading.counter]
    intro c member
    rcases List.mem_append.mp member with old | new
    · obtain ⟨x, inside, rfl⟩ := List.mem_map.mp old
      have := below x inside
      omega
    · obtain ⟨i, inside, rfl⟩ := List.mem_map.mp new
      have := List.mem_range.mp inside
      omega

end Loaded

/-- The counter after those of some files, if there are any. -/
def nextCounter (counters : List Nat) (base : Nat) : Nat :=
  match counters.getLast? with
  | none => base
  | some last => 1 + last

theorem counterAfter_spec {counters : List Nat} (small : ∀ c ∈ counters, c < 2 ^ 31) {gen : Nat → FileName}
    (counted : ∀ c, (gen c).counter = c) (base : Nat) (db : ProjectDbImpl) :
    counterAfter (counters.map gen) base db = .ok (nextCounter counters base) db := by
  rw [counterAfter, nextCounter, List.getLast?_map]
  cases last : counters.getLast? with
  | none => rfl
  | some c =>
    have below := small c (List.mem_of_getLast? last)
    have wrapped : (1 + c) % 2 ^ 32 = 1 + c := Nat.mod_eq_of_lt (by omega)
    simp only [Option.map_some, getCounterFromFileName, counted, if_pos below, wrapped]
    rfl

theorem lt_nextCounter {counters : List Nat} (order : counters.Pairwise (· < ·)) (base : Nat) :
    ∀ c ∈ counters, c < nextCounter counters base := by
  intro c member
  rw [nextCounter]
  obtain ⟨earlier, last, rfl⟩ := (List.eq_nil_or_concat' counters).resolve_left (List.ne_nil_of_mem member)
  rw [List.getLast?_concat]
  simp only
  rcases List.mem_append.mp member with old | same
  · have below := (List.pairwise_append.mp order).2.2 c old last (List.mem_singleton_self _)
    omega
  · rw [List.mem_singleton.mp same]
    omega

theorem nextCounter_le {counters : List Nat} {base bound : Nat} (low : base ≤ bound)
    (small : ∀ c ∈ counters, c < bound) : nextCounter counters base ≤ bound := by
  rw [nextCounter]
  cases last : counters.getLast? with
  | none => exact low
  | some c =>
    have below := small c (List.mem_of_getLast? last)
    simp only
    omega

section Reload
variable {files : Files} {tables : List (Nat × SSTable)} {logs : List (Nat × List Byte)} {memory : List Table}

/-- The state in which the logs are loaded: the SSTables have been. -/
def tablesLoaded (files : Files) (now : UInt64) (xs : List Indexed) (ssTableBase transactionLogBase : Nat) :
    ProjectDbImpl :=
  { fresh files now ssTableBase transactionLogBase with ssTableIndexQueue := ⟨xs.map Prod.fst, 0⟩ }

/-- The end of `reload`: the logs of the directory are loaded. -/
theorem reloadLogs (disk : Disk files tables logs) (loads : LogsLoad fmt logs memory) (base : ProjectDbImpl)
    (same : base.files = files) (empty : base.memTableQueue = []) (idle : base.flushToDiskFutures = [])
    (fresh : base.nextTable = 0) (low : base.ssTableFileCounterBase ≤ 2 ^ 31) :
    ∃ next, reloadTransactionLogs fmt (logs.map fun l => genTransactionLogFileName l.1) base = .ok () next ∧
      Loading base logs memory (logs.length - 1) next := by
  have start : Loading base [] [] 0 base := by
    refine ⟨rfl, ?_, ?_, fresh, ?_, idle, rfl⟩
    · rw [empty]
      rfl
    · rw [empty]
      rfl
    · rw [empty]
      rfl
  by_cases none : logs = []
  · subst none
    cases loads
    exact ⟨base, rfl, start⟩
  · have few : logs.length ≤ 2 ^ 31 := by
      rw [← List.length_map (f := Prod.fst)]
      refine length_le_of_increasing disk.transactionLogOrder fun c member => ?_
      obtain ⟨l, listed, rfl⟩ := List.mem_map.mp member
      exact disk.counters.2 l listed
    have found : ∀ l ∈ logs, base.files.read (genTransactionLogFileName l.1) = some l.2 := fun l member => by
      rw [same]
      exact (disk.transactionLogs _ rfl _).mpr ⟨l, member, rfl, rfl⟩
    obtain ⟨next, run, loading⟩ := reloadTransactionLogs_spec start none found loads
      (by simp only [List.length_nil]; omega)
    simp only [List.nil_append, List.length_nil, Nat.zero_add] at loading
    exact ⟨next, run, loading⟩

variable {now : UInt64} {ssTableBase transactionLogBase : Nat} {xs : List Indexed} {loaded : ProjectDbImpl}

/-- The end of `reload`, from the logs of the directory on. -/
def loadLogs (fmt : LogFormat) (logs : List (Nat × List Byte)) : DbM Unit := do
  reloadTransactionLogs fmt (logs.map fun l => genTransactionLogFileName l.1)
  let db ← DbM.current
  let counter ← counterAfter (logs.map fun l => genTransactionLogFileName l.1) db.transactionLogFileCounterBase
  DbM.change fun db => { db with transactionLogFileCounterBase := counter }

/-- The steps of `reload` up to the logs, given what the loop over the SSTables does. -/
theorem reload_eq (disk : Disk files tables logs)
    (loadTables : reloadSSTables cfg (tables.map fun t => genSSTableFileName t.1)
      (fresh files now ssTableBase transactionLogBase) =
      .ok () (tablesLoaded files now xs ssTableBase transactionLogBase)) :
    reload cfg fmt (fresh files now ssTableBase transactionLogBase) = loadLogs fmt logs
      (tablesLoaded files now xs (nextCounter (tables.map Prod.fst) ssTableBase) transactionLogBase) := by
  have listTables : DbM.file (getFilesWithExtSorted .sst) (fresh files now ssTableBase transactionLogBase) =
      .ok (tables.map fun t => genSSTableFileName t.1) (fresh files now ssTableBase transactionLogBase) := by
    simp only [DbM.file, fresh, disk.listSSTables]
  have countTables (db : ProjectDbImpl) : counterAfter (tables.map fun t => genSSTableFileName t.1) ssTableBase db =
      .ok (nextCounter (tables.map Prod.fst) ssTableBase) db := by
    have counted := counterAfter_spec disk.smallCounters.1 (fun c => (rfl : (genSSTableFileName c).counter = c))
      ssTableBase db
    rwa [List.map_map] at counted
  have listLogs : DbM.file (getFilesWithExtSorted .txl)
      (tablesLoaded files now xs (nextCounter (tables.map Prod.fst) ssTableBase) transactionLogBase) =
      .ok (logs.map fun l => genTransactionLogFileName l.1)
        (tablesLoaded files now xs (nextCounter (tables.map Prod.fst) ssTableBase) transactionLogBase) := by
    simp only [DbM.file, tablesLoaded, fresh, disk.listTransactionLogs]
  rw [reload, EStateM.bind_ok listTables, EStateM.bind_ok loadTables]
  refine (EStateM.bind_ok (show DbM.current _ = .ok _ _ from rfl)).trans ?_
  refine (EStateM.bind_ok (countTables _)).trans ?_
  refine (EStateM.bind_ok (show DbM.change _ _ =
    .ok () (tablesLoaded files now xs (nextCounter (tables.map Prod.fst) ssTableBase) transactionLogBase) from rfl)).trans ?_
  rw [EStateM.bind_ok listLogs]
  rfl

theorem loadLogs_run (disk : Disk files tables logs) {db : ProjectDbImpl}
    (load : reloadTransactionLogs fmt (logs.map fun l => genTransactionLogFileName l.1) db = .ok () loaded) :
    loadLogs fmt logs db = .ok () { loaded with
      transactionLogFileCounterBase := nextCounter (logs.map Prod.fst) loaded.transactionLogFileCounterBase } := by
  have countLogs : counterAfter (logs.map fun l => genTransactionLogFileName l.1)
      loaded.transactionLogFileCounterBase loaded =
        .ok (nextCounter (logs.map Prod.fst) loaded.transactionLogFileCounterBase) loaded := by
    have counted := counterAfter_spec disk.smallCounters.2 (fun c => (rfl : (genTransactionLogFileName c).counter = c))
      loaded.transactionLogFileCounterBase loaded
    rwa [List.map_map] at counted
  rw [loadLogs, EStateM.bind_ok load]
  refine (EStateM.bind_ok (show DbM.current loaded = .ok loaded loaded from rfl)).trans ?_
  rw [EStateM.bind_ok countLogs]
  rfl

/-- The SSTables of the directory load, whatever its logs are like. -/
theorem reloadSSTables_disk (cfg : Config) (disk : Disk files tables logs) (now : UInt64) (ssTableBase transactionLogBase : Nat) :
    ∃ xs : List Indexed, reloadSSTables cfg (tables.map fun t => genSSTableFileName t.1)
        (fresh files now ssTableBase transactionLogBase) =
        .ok () (tablesLoaded files now xs ssTableBase transactionLogBase) ∧
      xs.map (fun x => x.1.ssTableFileName) = tables.map (fun t => genSSTableFileName t.1) ∧
      xs.map Prod.snd = tables.map Prod.snd ∧ ∀ x ∈ xs, x.1.Holds files x.2 :=
  reloadSSTables_spec cfg tables (fresh files now ssTableBase transactionLogBase) fun t member =>
    ⟨(disk.ssTables _ rfl _).mpr ⟨t, member, rfl, rfl⟩, disk.small t member⟩

/-- Only a directory whose logs load can be loaded. -/
theorem reload_loads (disk : Disk files tables logs)
    (run : reload cfg fmt (fresh files now ssTableBase transactionLogBase) = .ok () loaded) :
    ∃ memory, LogsLoad fmt logs memory := by
  obtain ⟨xs, loadTables, _⟩ := reloadSSTables_disk cfg disk now ssTableBase transactionLogBase
  rw [reload_eq disk loadTables] at run
  obtain ⟨_, next, load, _⟩ := EStateM.bind_eq_ok run
  refine reloadTransactionLogs_loads (fun l member => ?_) load
  exact (disk.transactionLogs _ rfl _).mpr ⟨l, member, rfl, rfl⟩

/-- Loading a directory opens a database on its tables, with the logs as MemTables. -/
theorem reload_spec (disk : Disk files tables logs) (loads : LogsLoad fmt logs memory) (sstLow : ssTableBase ≤ 2 ^ 31) :
    ∃ next xs, reload cfg fmt (fresh files now ssTableBase transactionLogBase) = .ok () next ∧
      Inv cfg permit (openedView xs logs memory) next ∧ xs.map (fun x => (counterOf x, x.2)) = tables := by
  obtain ⟨smallTables, smallLogs⟩ := disk.smallCounters
  obtain ⟨xs, loadTables, names, contents, holds⟩ := reloadSSTables_disk cfg disk now ssTableBase transactionLogBase
  have counters : xs.map counterOf = tables.map Prod.fst := by
    have same := congrArg (List.map FileName.counter) names
    rw [List.map_map, List.map_map] at same
    exact same
  have low := nextCounter_le sstLow smallTables
  obtain ⟨loaded, loadLogs, loading⟩ := reloadLogs disk loads
    (tablesLoaded files now xs (nextCounter (tables.map Prod.fst) ssTableBase) transactionLogBase) rfl rfl rfl rfl low
  have sameFiles : loaded.files = files := loading.files
  have kept := loading.others
  have sameQueue : loaded.ssTableIndexQueue = ⟨xs.map Prod.fst, 0⟩ := by
    have same := congrArg ProjectDbImpl.ssTableIndexQueue kept
    exact same
  have sameFuture : loaded.ssTableCompactionFuture = none := by
    have same := congrArg ProjectDbImpl.ssTableCompactionFuture kept
    exact same
  have shelf : (openedView xs logs memory).shelf = xs := List.append_nil _
  have flushing : Flushing (openedView xs logs memory) loaded := by
    refine loading.flushing ?_ fun x member => ?_
    · rw [counters]
      exact disk.ssTableOrder
    · have below := lt_nextCounter disk.ssTableOrder ssTableBase (counterOf x) (counters ▸ List.mem_map_of_mem member)
      exact below.le
  refine ⟨_, xs, (reload_eq disk loadTables).trans (loadLogs_run disk loadLogs), ⟨?_, ⟨loading.names, ?_, disk.transactionLogOrder, ?_⟩,
    ⟨sameQueue ▸ rfl, ?_, ?_, ?_, ?_⟩, ?_⟩, ?_⟩
  · obtain ⟨early, taken, aligned, distinct, allocated, memory, retired, sound, named, order, base⟩ := flushing
    exact ⟨early, taken, aligned, distinct, allocated, memory, retired, sound, named, order, base⟩
  · change ∀ n : FileName, _ → ∀ bytes, loaded.files.read n = some bytes ↔ _
    rw [sameFiles]
    exact disk.transactionLogs
  · intro l member
    exact lt_nextCounter disk.transactionLogOrder _ l.1 (List.mem_map_of_mem member)
  · rw [shelf]
    intro x member
    change x.1.Holds loaded.files x.2
    rw [sameFiles]
    exact holds x member
  · rw [shelf]
    intro x member
    have listed : x.1.ssTableFileName ∈ tables.map fun t => genSSTableFileName t.1 := by
      rw [← names]
      exact List.mem_map_of_mem member
    obtain ⟨t, _, same⟩ := List.mem_map.mp listed
    rw [counterOf, ← same]
    rfl
  · rw [shelf, names]
    intro n isSst bytes found
    change loaded.files.read n = some bytes at found
    rw [sameFiles] at found
    obtain ⟨t, listed, rfl, _⟩ := (disk.ssTables n isSst bytes).mp found
    exact List.mem_map_of_mem listed
  · refine Or.inl ?_
    change loaded.ssTableIndexQueue.compactionStartIndex = 0
    rw [sameQueue]
  · intro job launched
    change loaded.ssTableCompactionFuture = some job at launched
    rw [sameFuture] at launched
    contradiction
  · have zipped := congrArg₂ List.zip counters contents
    rw [List.zip_map', List.zip_map'] at zipped
    exact zipped.trans (List.map_id _)

/-- A directory whose SSTable files are those of some elements of a queue. -/
theorem disk_of_elements {xs : List Indexed} (holds : ∀ x ∈ xs, x.1.Holds files x.2)
    (named : ∀ x ∈ xs, x.1.ssTableFileName = genSSTableFileName (counterOf x))
    (listed : ∀ n : FileName, n.extension = some .sst → ∀ bytes, files.read n = some bytes →
      n ∈ xs.map fun x => x.1.ssTableFileName)
    (order : (xs.map counterOf).Pairwise (· < ·))
    (transactionLogs : ∀ n : FileName, n.extension = some .txl → ∀ bytes,
      files.read n = some bytes ↔ ∃ l ∈ logs, n = genTransactionLogFileName l.1 ∧ bytes = l.2)
    (transactionLogOrder : (logs.map Prod.fst).Pairwise (· < ·))
    (counters : (∀ x ∈ xs, counterOf x < 2 ^ 31) ∧ ∀ l ∈ logs, l.1 < 2 ^ 31) :
    Disk files (xs.map fun x => (counterOf x, x.2)) logs where
  ssTables n isSst bytes := by
    constructor
    · intro found
      obtain ⟨x, member, rfl⟩ := List.mem_map.mp (listed n isSst bytes found)
      have contents := (holds x member).file
      rw [found] at contents
      exact ⟨_, List.mem_map_of_mem member, named x member, Option.some.inj contents⟩
    · rintro ⟨t, member, rfl, rfl⟩
      obtain ⟨x, inside, rfl⟩ := List.mem_map.mp member
      rw [← named x inside]
      exact (holds x inside).file
  small t member := by
    obtain ⟨x, inside, rfl⟩ := List.mem_map.mp member
    exact (holds x inside).small
  ssTableOrder := by
    rw [List.map_map]
    exact order
  transactionLogs := transactionLogs
  transactionLogOrder := transactionLogOrder
  counters := by
    refine ⟨fun t member => ?_, counters.2⟩
    obtain ⟨x, inside, rfl⟩ := List.mem_map.mp member
    exact counters.1 x inside

/-- The files of an open database are such a directory. -/
theorem Inv.disk {v : View} {db : ProjectDbImpl} (inv : Inv cfg permit v db)
    (smallTables : ∀ x ∈ v.shelf, counterOf x < 2 ^ 31) (smallLogs : ∀ l ∈ v.logs, l.1 < 2 ^ 31) :
    Disk db.files (v.shelf.map fun x => (counterOf x, x.2)) v.logs :=
  disk_of_elements inv.shelved.holds inv.shelved.named inv.shelved.listed
    (List.pairwise_append.mp inv.flushing.order).1 inv.logging.files inv.logging.order ⟨smallTables, smallLogs⟩

end Reload

section Init
variable {files : Files} {tables : List (Nat × SSTable)} {logs : List (Nat × List Byte)} {memory : List Table}
  {ssTableBase transactionLogBase : Nat} {db next : ProjectDbImpl}

/-- Before it loads the directory, a database has removed temporary files at most. -/
structure Opening (files : Files) (ssTableBase transactionLogBase : Nat) (db : ProjectDbImpl) : Prop where
  fresh : ∃ now, db = ProjectDbImpl.fresh db.files now ssTableBase transactionLogBase
  same : ∀ n : FileName, n.extension = some .sst ∨ n.extension = some .txl → db.files.read n = files.read n

theorem Opening.step (opening : Opening files ssTableBase transactionLogBase db)
    (step : Others cfg permit db next) : Opening files ssTableBase transactionLogBase next := by
  obtain ⟨⟨now, fresh⟩, same⟩ := opening
  obtain ⟨kind, step, _⟩ := step
  cases step with
  | tick _ later => exact ⟨⟨later, by rw [fresh]; rfl⟩, same⟩
  | clean running =>
    rw [fresh] at running
    obtain ⟨job, member, _⟩ | ⟨job, launched, _⟩ := running
    · cases member
    · cases launched
  | flush split =>
    rw [fresh] at split
    simp [ProjectDbImpl.fresh] at split
  | compaction launched =>
    rw [fresh] at launched
    cases launched

theorem Opening.assertion (disk : Disk files tables logs) :
    Prog.Assertion (Others cfg permit) (fun t => Disk t.files tables logs)
      (Opening files ssTableBase transactionLogBase) where
  stable _ _ opening step := opening.step step
  within _ opening := disk.frame opening.same

section Removing
variable {rely : ProjectDbImpl → ProjectDbImpl → Prop} {always : ProjectDbImpl → Prop} {raised : Exn → Prop}
  {P : ProjectDbImpl → Prop} {ext : FileExt} (asserted : Prog.Assertion rely always P)
  (removal : ∀ t (name : FileName), P t → name.extension = some ext → P { t with files := t.files.remove name })
include asserted removal

theorem removeAll_keeps {names : List FileName} (extended : ∀ n ∈ names, n.extension = some ext) (holds : P db) :
    (removeAll names).Safe rely always raised (fun _ => P) db := by
  induction names generalizing db with
  | nil => exact Prog.Safe.ret (Q := fun _ => P) asserted holds
  | cons name names ih =>
    refine Prog.Safe.bind (Prog.Safe.atomic (Q := fun _ => P) asserted (fun _ => asserted) holds fun t now => ?_)
      fun _ t now => ?_
    · exact ⟨(), _, rfl, removal t name now (extended name (List.mem_cons_self ..))⟩
    · exact ih (fun n member => extended n (List.mem_cons_of_mem _ member)) now

/-- Removing the files of an extension keeps what the removal of each of them keeps. -/
theorem removeFilesWithExt_keeps (holds : P db) :
    (removeFilesWithExt ext).Safe rely always raised (fun _ => P) db := by
  refine Prog.Safe.bind (Prog.Safe.readAs (Q := fun names t => (∀ n ∈ names, n.extension = some ext) ∧ P t)
    asserted (fun _ => asserted.and_pure _) holds fun t now => ⟨fun n member => ?_, now⟩) ?_
  · exact of_decide_eq_true (List.mem_filter.mp member).2
  · rintro names t ⟨extended, now⟩
    exact removeAll_keeps asserted removal extended now

end Removing

theorem Opening.remove {ext : FileExt} (temporary : ext ≠ .sst ∧ ext ≠ .txl) (t : ProjectDbImpl) (name : FileName)
    (opening : Opening files ssTableBase transactionLogBase t) (extended : name.extension = some ext) :
    Opening files ssTableBase transactionLogBase { t with files := t.files.remove name } := by
  obtain ⟨⟨time, fresh⟩, same⟩ := opening
  refine ⟨⟨time, by rw [fresh]; rfl⟩, fun n kept => ?_⟩
  change (t.files.remove name).read n = _
  rw [Directory.read_remove, if_neg, same n kept]
  rintro rfl
  rw [extended] at kept
  rcases kept with sst | txl
  · exact temporary.1 (Option.some.inj sst)
  · exact temporary.2 (Option.some.inj txl)

/-- A database that has been opened on a directory: its SSTables are those of
the directory, its MemTables those of the logs. -/
def OpenedOn (cfg : Config) (permit : List SSTable → Nat → Prop) (tables : List (Nat × SSTable))
    (logs : List (Nat × List Byte)) (memory : List Table) (db : ProjectDbImpl) : Prop :=
  ∃ xs, xs.map (fun x => (counterOf x, x.2)) = tables ∧ Inv cfg permit (openedView xs logs memory) db

theorem OpenedOn.assertion (disk : Disk files tables logs) :
    Prog.Assertion (Others cfg permit) (fun t => Disk t.files tables logs) (OpenedOn cfg permit tables logs memory) where
  stable _ _ opened step := by
    obtain ⟨xs, same, inv⟩ := opened
    exact ⟨xs, same, inv.others step⟩
  within t opened := by
    obtain ⟨xs, rfl, inv⟩ := opened
    have shelf : (openedView xs logs memory).shelf = xs := List.append_nil _
    have again := inv.disk (fun x member => disk.counters.1 _ (List.mem_map_of_mem (shelf ▸ member))) disk.counters.2
    rwa [shelf] at again

/-- What `init` has done before it loads the directory, whatever the logs are like. -/
theorem init_safe_of (disk : Disk files tables logs) (now : UInt64) (transactionLogBase : Nat)
    {always : ProjectDbImpl → Prop} {raised : Exn → Prop} {final : Unit → ProjectDbImpl → Prop}
    (lasting : ∀ t, Disk t.files tables logs → always t)
    (load : ∀ t, Opening files ssTableBase transactionLogBase t →
      (Prog.atomic (reload cfg fmt)).Safe (Others cfg permit) always raised final t) :
    (init cfg fmt).Safe (Others cfg permit) always raised final
      (fresh files now ssTableBase transactionLogBase) := by
  have opening : Opening files ssTableBase transactionLogBase (fresh files now ssTableBase transactionLogBase) :=
    ⟨⟨now, rfl⟩, fun _ _ => rfl⟩
  have still : Prog.Assertion (Others cfg permit) always (Opening files ssTableBase transactionLogBase) :=
    (Opening.assertion disk).weaken lasting
  refine (removeFilesWithExt_keeps still (Opening.remove (by decide)) opening).bind fun _ t first => ?_
  refine (removeFilesWithExt_keeps still (Opening.remove (by decide)) first).bind fun _ t second => ?_
  refine (removeFilesWithExt_keeps still (Opening.remove (by decide)) second).bind fun _ t third => ?_
  exact load t third

/-- Opening a directory whose logs load: temporary files are removed, and the
database is the one that the directory stands for. -/
theorem init_safe (disk : Disk files tables logs) (loads : LogsLoad fmt logs memory) (now : UInt64)
    (transactionLogBase : Nat) (low : ssTableBase ≤ 2 ^ 31) :
    (init cfg fmt).Safe (Others cfg permit) (fun t => Disk t.files tables logs) (fun _ => False)
      (fun _ => OpenedOn cfg permit tables logs memory) (fresh files now ssTableBase transactionLogBase) := by
  refine init_safe_of disk now transactionLogBase (fun _ still => still) fun t opening => ?_
  refine Prog.Safe.atomic (Q := fun _ => OpenedOn cfg permit tables logs memory) (Opening.assertion disk)
    (fun _ => OpenedOn.assertion disk) opening fun u last => ?_
  obtain ⟨⟨time, fresh⟩, same⟩ := last
  obtain ⟨next, xs, run, inv, tables⟩ := reload_spec (disk.frame same) loads low
  exact ⟨(), next, by rw [fresh]; exact run, xs, tables, inv⟩

/-- A directory whose logs load can be opened, whatever the counters of the process are. -/
theorem init_returns (disk : Disk files tables logs) (loads : LogsLoad fmt logs memory) (now : UInt64)
    (low : ssTableBase ≤ 2 ^ 31) (transactionLogBase : Nat) :
    ∃ opened, (init cfg fmt).run (fresh files now ssTableBase transactionLogBase) = .ok () opened := by
  have safe : (init cfg fmt).Safe (Others cfg anyCompaction) (fun t => Disk t.files tables logs) (fun _ => False)
      (fun _ => OpenedOn cfg anyCompaction tables logs memory) (fresh files now ssTableBase transactionLogBase) :=
    init_safe disk loads now transactionLogBase low
  obtain ⟨_, opened, run, _⟩ := safe.returns
  exact ⟨opened, run⟩

/-- Opening succeeds only where the logs load. -/
theorem init_loads (disk : Disk files tables logs) {now : UInt64}
    (path : Prog.Reaches (Others cfg permit) (init cfg fmt) (fresh files now ssTableBase transactionLogBase)
      (.ret ()) db) : ∃ memory, LogsLoad fmt logs memory := by
  by_contra fails
  have anything : Prog.Assertion (Others cfg permit) (fun _ => True) fun _ => True := ⟨fun _ _ _ _ => trivial, fun _ _ => trivial⟩
  have safe : (init cfg fmt).Safe (Others cfg permit) (fun _ => True) (fun _ => True) (fun _ _ => False)
      (fresh files now ssTableBase transactionLogBase) := by
    refine init_safe_of disk now transactionLogBase (fun _ _ => trivial) fun t opening => ?_
    refine Prog.Safe.attempt (P := Opening files ssTableBase transactionLogBase) (Q := fun _ _ => False)
      ((Opening.assertion disk).weaken fun _ _ => trivial) (fun _ => ⟨fun _ _ none _ => none, fun _ _ => trivial⟩) anything
      opening fun u last => ?_
    obtain ⟨⟨time, fresh⟩, same⟩ := last
    cases run : reload cfg fmt u with
    | ok _ loaded =>
      rw [fresh] at run
      exact fails (reload_loads (disk.frame same) run)
    | error e broken => exact ⟨trivial, trivial⟩
  exact (safe.reaches path).returned

end Init
end ProjectDbImpl
end ProjectDb
