import ProjectDb.HandOver

namespace ProjectDb

/-- A directory as databases leave it: SSTables and logs with their counters,
in the order of these, and no other files with their extensions. -/
structure Disk (files : Files) (tables : List (Nat × SSTable)) (logs : List (Nat × List Byte)) : Prop where
  ssTables : ∀ n : FileName, n.extension = some .sst → ∀ bytes,
    files.read n = some bytes ↔ ∃ t ∈ tables, n = genSSTableFileName t.1 ∧ bytes = t.2.serialized
  small : ∀ t ∈ tables, t.2.serialized.length < 2 ^ 63
  ssTableOrder : (tables.map Prod.fst).Pairwise (· < ·)
  transactionLogs : ∀ n : FileName, n.extension = some .txl → ∀ bytes,
    files.read n = some bytes ↔ ∃ l ∈ logs, n = genTransactionLogFileName l.1 ∧ bytes = l.2
  transactionLogOrder : (logs.map Prod.fst).Pairwise (· < ·)
  counters : (∀ t ∈ tables, t.1 < 2 ^ 31) ∧ ∀ l ∈ logs, l.1 < 2 ^ 31

theorem Disk.frame {files other : Files} {tables : List (Nat × SSTable)} {logs : List (Nat × List Byte)}
    (disk : Disk files tables logs)
    (same : ∀ n : FileName, n.extension = some .sst ∨ n.extension = some .txl → other.read n = files.read n) :
    Disk other tables logs where
  ssTables n isSst bytes := by rw [same n (Or.inl isSst)]; exact disk.ssTables n isSst bytes
  small := disk.small
  ssTableOrder := disk.ssTableOrder
  transactionLogs n isLog bytes := by rw [same n (Or.inr isLog)]; exact disk.transactionLogs n isLog bytes
  transactionLogOrder := disk.transactionLogOrder
  counters := disk.counters

theorem Disk.smallCounters {files : Files} {tables : List (Nat × SSTable)} {logs : List (Nat × List Byte)}
    (disk : Disk files tables logs) :
    (∀ c ∈ tables.map Prod.fst, c < 2 ^ 31) ∧ ∀ c ∈ logs.map Prod.fst, c < 2 ^ 31 := by
  refine ⟨fun c member => ?_, fun c member => ?_⟩
  · obtain ⟨t, listed, rfl⟩ := List.mem_map.mp member
    exact disk.counters.1 t listed
  · obtain ⟨l, listed, rfl⟩ := List.mem_map.mp member
    exact disk.counters.2 l listed

/-- Listing the files of an extension in the order of their counters. -/
theorem getFilesWithExtSorted_spec {files : Files} {ext : FileExt} {names : List FileName}
    (listed : ∀ n, n ∈ names ↔ n.extension = some ext ∧ ∃ bytes, files.read n = some bytes)
    (order : names.Pairwise fun a b => a.counter < b.counter) (small : ∀ n ∈ names, n.counter < 2 ^ 31) :
    getFilesWithExtSorted ext files = .ok names files := by
  have same : ∀ n, n ∈ filesWithExt files ext ↔ n ∈ names := by
    intro n
    rw [filesWithExt, List.mem_filter, Directory.mem_names, decide_eq_true_eq, listed, and_comm]
  have counters : (names.map FileName.counter).Nodup := by
    refine List.pairwise_map.mpr (order.imp fun below equal => ?_)
    omega
  have perm : (filesWithExt files ext).Perm names :=
    (List.perm_ext_iff_of_nodup (files.names_nodup.filter _) (counters.of_map _)).mpr same
  have parsed : ¬ (2 ≤ (filesWithExt files ext).length ∧ ∃ n ∈ filesWithExt files ext, 2 ^ 31 ≤ n.counter) := by
    rintro ⟨_, n, member, large⟩
    have below := small n ((same n).mp member)
    omega
  have total : Std.Total fun a b : FileName => a.counter ≤ b.counter := ⟨fun a b => Nat.le_total a.counter b.counter⟩
  have trans : IsTrans FileName fun a b => a.counter ≤ b.counter := ⟨fun _ _ _ => Nat.le_trans⟩
  simp only [getFilesWithExtSorted, if_neg parsed]
  congr 1
  refine List.Perm.eq_of_pairwise ?_ (List.pairwise_insertionSort (fun a b : FileName => a.counter ≤ b.counter) _)
    (order.imp fun below => below.le) ((List.perm_insertionSort _ _).trans perm)
  intro a b first second low high
  have listedA : a ∈ names := perm.subset ((List.perm_insertionSort _ _).subset first)
  exact List.inj_on_of_nodup_map counters listedA second (Nat.le_antisymm low high)

section Loads
variable {files : Files} {tables : List (Nat × SSTable)} {logs : List (Nat × List Byte)}

theorem Disk.listSSTables (disk : Disk files tables logs) :
    getFilesWithExtSorted .sst files = .ok (tables.map fun t => genSSTableFileName t.1) files := by
  refine getFilesWithExtSorted_spec (fun n => ?_) ?_ ?_
  · constructor
    · intro member
      obtain ⟨t, listed, rfl⟩ := List.mem_map.mp member
      exact ⟨rfl, _, (disk.ssTables _ rfl _).mpr ⟨t, listed, rfl, rfl⟩⟩
    · rintro ⟨isSst, bytes, found⟩
      obtain ⟨t, listed, rfl, _⟩ := (disk.ssTables n isSst bytes).mp found
      exact List.mem_map_of_mem listed
  · exact List.pairwise_map.mpr (List.pairwise_map.mp disk.ssTableOrder)
  · intro n member
    obtain ⟨t, listed, rfl⟩ := List.mem_map.mp member
    exact disk.counters.1 t listed

theorem Disk.listTransactionLogs (disk : Disk files tables logs) :
    getFilesWithExtSorted .txl files = .ok (logs.map fun l => genTransactionLogFileName l.1) files := by
  refine getFilesWithExtSorted_spec (fun n => ?_) ?_ ?_
  · constructor
    · intro member
      obtain ⟨l, listed, rfl⟩ := List.mem_map.mp member
      exact ⟨rfl, _, (disk.transactionLogs _ rfl _).mpr ⟨l, listed, rfl, rfl⟩⟩
    · rintro ⟨isLog, bytes, found⟩
      obtain ⟨l, listed, rfl, _⟩ := (disk.transactionLogs n isLog bytes).mp found
      exact List.mem_map_of_mem listed
  · exact List.pairwise_map.mpr (List.pairwise_map.mp disk.transactionLogOrder)
  · intro n member
    obtain ⟨l, listed, rfl⟩ := List.mem_map.mp member
    exact disk.counters.2 l listed

end Loads

/-- The logs load, each to its MemTable. -/
def LogsLoad (fmt : LogFormat) (logs : List (Nat × List Byte)) (memory : List Table) : Prop :=
  List.Forall₂ (fun l t => fmt.load (genTransactionLogFileName l.1) (.between [] l.2) = .ok t) logs memory

namespace ProjectDbImpl
variable {fmt : LogFormat}

/-- The SSTables of the directory become the queue, in their order. -/
theorem reloadSSTables_spec (cfg : Config) (tables : List (Nat × SSTable)) (db : ProjectDbImpl)
    (stored : ∀ t ∈ tables, db.files.read (genSSTableFileName t.1) = some t.2.serialized ∧
      t.2.serialized.length < 2 ^ 63) :
    ∃ xs : List Indexed, reloadSSTables cfg (tables.map fun t => genSSTableFileName t.1) db =
        .ok () { db with ssTableIndexQueue := { db.ssTableIndexQueue with
          queue := db.ssTableIndexQueue.queue ++ xs.map Prod.fst } } ∧
      xs.map (fun x => x.1.ssTableFileName) = tables.map (fun t => genSSTableFileName t.1) ∧
      xs.map Prod.snd = tables.map Prod.snd ∧ ∀ x ∈ xs, x.1.Holds db.files x.2 := by
  induction tables generalizing db with
  | nil =>
    refine ⟨[], ?_, rfl, rfl, by simp⟩
    simp only [List.map_nil, List.append_nil]
    rfl
  | cons t rest ih =>
    obtain ⟨file, small⟩ := stored t (List.mem_cons_self ..)
    obtain ⟨index, load, holds, named⟩ := loadSSTable_index_spec cfg.ssTableIndexBlockSizeInBytes file small
    have later : ∀ u ∈ rest, (inserted db index).files.read (genSSTableFileName u.1) = some u.2.serialized ∧
        u.2.serialized.length < 2 ^ 63 := fun u member => stored u (List.mem_cons_of_mem _ member)
    obtain ⟨xs, run, names, tables, all⟩ := ih _ later
    refine ⟨(index, t.2) :: xs, ?_, by rw [List.map_cons, names, named, List.map_cons],
      by rw [List.map_cons, tables, List.map_cons], ?_⟩
    · have here : reloadSSTable cfg (genSSTableFileName t.1) db = .ok () (inserted db index) := by
        simp only [reloadSSTable, DbM.file, bind, EStateM.bind, load]
        rfl
      rw [List.map_cons, reloadSSTables, EStateM.bind_ok here, run]
      simp only [inserted, List.append_assoc, List.singleton_append, List.map_cons]
    · intro x member
      rcases List.mem_cons.mp member with rfl | member
      · exact holds
      · exact all x member

section Logs
variable {base db : ProjectDbImpl} {done rest : List (Nat × List Byte)} {memory tables : List Table}

/-- The flush job of the `i`-th MemTable that is loaded. -/
def reloadedJob (base : ProjectDbImpl) (i : Nat) : FlushJob :=
  ⟨i, genFlushInProgressSSTableFileName (genSSTableFileName (base.ssTableFileCounterBase + i + 1)), .running⟩

/-- Some logs have been loaded to MemTables; the first `jobs` of these are being
flushed. -/
structure Loading (base : ProjectDbImpl) (done : List (Nat × List Byte)) (memory : List Table) (jobs : Nat)
    (db : ProjectDbImpl) : Prop where
  others : { db with
    tables := base.tables, nextTable := base.nextTable, ssTableFileCounterBase := base.ssTableFileCounterBase,
    memTableQueue := base.memTableQueue, flushToDiskFutures := base.flushToDiskFutures } = base
  names : db.memTableQueue.map (·.2.transactionLogFileName) = done.map fun l => genTransactionLogFileName l.1
  addresses : db.memTableQueue.map (·.1.table) = List.range done.length
  nextTable : db.nextTable = done.length
  memory : db.memTableQueue.map (fun e => db.tables e.1.table) = memory
  futures : db.flushToDiskFutures = (List.range jobs).map (reloadedJob base)
  counter : db.ssTableFileCounterBase = base.ssTableFileCounterBase + jobs

theorem Loading.files {jobs : Nat} (loading : Loading base done memory jobs db) : db.files = base.files := by
  have same := congrArg ProjectDbImpl.files loading.others
  exact same

/-- The state after a MemTable has been loaded from a log. -/
def pushed (db : ProjectDbImpl) (l : Nat × List Byte) (table : Table) : ProjectDbImpl :=
  { db with
    tables := fun address => if address = db.nextTable then table else db.tables address
    nextTable := db.nextTable + 1
    memTableQueue := db.memTableQueue ++ [(⟨db.nextTable⟩, ⟨genTransactionLogFileName l.1⟩)] }

theorem Loading.push {jobs : Nat} (loading : Loading base done memory jobs db) (l : Nat × List Byte) (table : Table) :
    Loading base (done ++ [l]) (memory ++ [table]) jobs (db.pushed l table) := by
  obtain ⟨others, names, addresses, nextTable, tables, futures, counter⟩ := loading
  refine ⟨others, ?_, ?_, ?_, ?_, futures, counter⟩
  · simp only [pushed, List.map_append, names, List.map_singleton]
  · simp only [pushed, List.map_append, addresses, List.map_singleton, nextTable, List.length_append,
      List.length_singleton, List.range_succ]
  · simp only [pushed, nextTable, List.length_append, List.length_singleton]
  · have old : db.memTableQueue.map (fun e => (db.pushed l table).tables e.1.table) = memory := by
      rw [← tables]
      refine List.map_congr_left fun e member => if_neg ?_
      have below : e.1.table ∈ List.range done.length := by
        rw [← addresses]
        exact List.mem_map_of_mem member
      have less := List.mem_range.mp below
      omega
    change (db.memTableQueue ++ _).map _ = _
    rw [List.map_append, old, List.map_singleton]
    simp [pushed]

/-- The state after the flush of a loaded MemTable has been launched. -/
def reflushed (db : ProjectDbImpl) (job : FlushJob) : ProjectDbImpl :=
  { db with
    ssTableFileCounterBase := db.ssTableFileCounterBase + 1
    flushToDiskFutures := db.flushToDiskFutures ++ [job] }

theorem Loading.launch {jobs : Nat} (loading : Loading base done memory jobs db) :
    Loading base done memory (jobs + 1) (db.reflushed (reloadedJob base jobs)) := by
  obtain ⟨others, names, addresses, nextTable, tables, futures, counter⟩ := loading
  refine ⟨others, names, addresses, nextTable, tables, ?_, ?_⟩
  · simp only [reflushed, futures, List.range_succ, List.map_append, List.map_singleton]
  · simp only [reflushed, counter, Nat.add_assoc]

theorem pushFromTransactionLog_run {l : Nat × List Byte} {table : Table} (isLast : Bool)
    (found : db.files.read (genTransactionLogFileName l.1) = some l.2)
    (load : fmt.load (genTransactionLogFileName l.1) (.between [] l.2) = .ok table) :
    MemTableQueue.pushFromTransactionLog fmt (genTransactionLogFileName l.1) isLast db =
      if !isLast then (do
        let job ← MemTableQueue.launchFlushToDisk ⟨db.nextTable⟩
        pure (some job) : DbM (Option FlushJob)) (db.pushed l table)
      else .ok none (db.pushed l table) := by
  have stream : getFileStream db.files (genTransactionLogFileName l.1) = .between [] l.2 := by
    simp only [getFileStream, found]
  simp only [MemTableQueue.pushFromTransactionLog, MemTableQueue.loadTransactionLog, MemTable.create,
    TransactionLogWritter.reopen, MemTableQueue.emplaceBack, DbM.file, DbM.change, openForAppend, bind, EStateM.bind,
    stream, load, found, pure, EStateM.pure]
  cases isLast <;> rfl

/-- One pass of the loop over the logs, for a log that is not the last one. -/
theorem Loading.step (loading : Loading base done memory done.length db) {l m : Nat × List Byte} {table : Table}
    (found : base.files.read (genTransactionLogFileName l.1) = some l.2)
    (load : fmt.load (genTransactionLogFileName l.1) (.between [] l.2) = .ok table)
    (room : base.ssTableFileCounterBase + done.length + 1 < 2 ^ 32) :
    reloadTransactionLogs fmt ((l :: m :: rest).map fun l => genTransactionLogFileName l.1) db =
      reloadTransactionLogs fmt ((m :: rest).map fun l => genTransactionLogFileName l.1)
        ((db.pushed l table).reflushed (reloadedJob base done.length)) := by
  have push := pushFromTransactionLog_run false (loading.files ▸ found) load
  have wrapped : ((db.pushed l table).ssTableFileCounterBase + 1) % 2 ^ 32 =
      base.ssTableFileCounterBase + done.length + 1 := by
    rw [show (db.pushed l table).ssTableFileCounterBase = db.ssTableFileCounterBase from rfl, loading.counter]
    exact Nat.mod_eq_of_lt room
  simp only [Bool.not_false, if_true, MemTableQueue.launchFlushToDisk, bind, EStateM.bind, wrapped, pure,
    EStateM.pure] at push
  conv =>
    lhs
    rw [List.map_cons, reloadTransactionLogs]
  simp only [List.map_cons, List.isEmpty_cons, bind, EStateM.bind, push, DbM.change]
  simp only [reflushed, reloadedJob, loading.nextTable, ← loading.counter]
  rfl

/-- The logs become MemTables, all but the last one being flushed. -/
theorem reloadTransactionLogs_spec (loading : Loading base done memory done.length db) (some : rest ≠ [])
    (found : ∀ l ∈ rest, base.files.read (genTransactionLogFileName l.1) = Option.some l.2)
    (loads : LogsLoad fmt rest tables) (room : base.ssTableFileCounterBase + done.length + rest.length ≤ 2 ^ 32) :
    ∃ next, reloadTransactionLogs fmt (rest.map fun l => genTransactionLogFileName l.1) db = .ok () next ∧
      Loading base (done ++ rest) (memory ++ tables) (done.length + rest.length - 1) next := by
  induction loads generalizing done memory db with
  | nil => exact absurd rfl some
  | @cons l table rest tables load loads ih =>
    have pushed := loading.push l table
    cases rest with
    | nil =>
      cases loads
      have push := pushFromTransactionLog_run true (loading.files ▸ found l (List.mem_cons_self ..)) load
      refine ⟨db.pushed l table, ?_, pushed⟩
      simp only [List.map_cons, List.map_nil, reloadTransactionLogs, List.isEmpty_nil, bind, EStateM.bind, push]
      rfl
    | cons m rest =>
      simp only [List.length_cons] at room
      have launched := pushed.launch
      have length : (done ++ [l]).length = done.length + 1 := by simp
      rw [← length] at launched
      obtain ⟨next, run, loaded⟩ := ih launched (List.cons_ne_nil _ _)
        (fun k member => found k (List.mem_cons_of_mem _ member)) (by rw [length, List.length_cons]; omega)
      rw [loading.step (found l (List.mem_cons_self ..)) load (by omega), run]
      refine ⟨next, rfl, ?_⟩
      rw [List.append_assoc, List.append_assoc, List.singleton_append, List.singleton_append, length] at loaded
      have sum : done.length + 1 + (m :: rest).length - 1 = done.length + (l :: m :: rest).length - 1 := by
        simp only [List.length_cons]
        omega
      rw [← sum]
      exact loaded

/-- A log that a database has loaded is one that loads. -/
theorem pushFromTransactionLog_loads {l : Nat × List Byte} {isLast : Bool} {job : Option FlushJob}
    {next : ProjectDbImpl} (found : db.files.read (genTransactionLogFileName l.1) = some l.2)
    (run : MemTableQueue.pushFromTransactionLog fmt (genTransactionLogFileName l.1) isLast db = .ok job next) :
    (∃ table, fmt.load (genTransactionLogFileName l.1) (.between [] l.2) = .ok table) ∧ next.files = db.files := by
  cases load : fmt.load (genTransactionLogFileName l.1) (.between [] l.2) with
  | ok table =>
    rw [pushFromTransactionLog_run isLast found load] at run
    refine ⟨⟨table, rfl⟩, ?_⟩
    cases isLast <;> cases run <;> rfl
  | error e =>
    have stream : getFileStream db.files (genTransactionLogFileName l.1) = .between [] l.2 := by
      simp only [getFileStream, found]
    simp only [MemTableQueue.pushFromTransactionLog, MemTableQueue.loadTransactionLog, bind, EStateM.bind, stream,
      load] at run
    contradiction

theorem reloadTransactionLogs_loads {logs : List (Nat × List Byte)} {next : ProjectDbImpl}
    (found : ∀ l ∈ logs, db.files.read (genTransactionLogFileName l.1) = some l.2)
    (run : reloadTransactionLogs fmt (logs.map fun l => genTransactionLogFileName l.1) db = .ok () next) :
    ∃ memory, LogsLoad fmt logs memory := by
  induction logs generalizing db with
  | nil => exact ⟨[], .nil⟩
  | cons l logs ih =>
    rw [List.map_cons, reloadTransactionLogs] at run
    obtain ⟨job, pushed, push, run⟩ := EStateM.bind_eq_ok run
    obtain ⟨⟨table, load⟩, files⟩ := pushFromTransactionLog_loads (found l (List.mem_cons_self ..)) push
    obtain ⟨stored, same, run⟩ : ∃ stored : ProjectDbImpl, stored.files = pushed.files ∧
        reloadTransactionLogs fmt (logs.map fun l => genTransactionLogFileName l.1) stored = .ok () next := by
      cases job with
      | none => exact ⟨pushed, rfl, run⟩
      | some job =>
        refine ⟨{ pushed with flushToDiskFutures := pushed.flushToDiskFutures ++ [job] }, ?_, run⟩
        rfl
    obtain ⟨memory, loads⟩ := ih (fun m member => same ▸ files ▸ found m (List.mem_cons_of_mem _ member)) run
    exact ⟨table :: memory, .cons load loads⟩

end Logs
end ProjectDbImpl
end ProjectDb
