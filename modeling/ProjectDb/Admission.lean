import ProjectDb.SSTableGrammar
import ProjectDb.Recovery
import ProjectDb.Foundation.Framing

namespace ProjectDb

/-- Files that are not temporary. -/
def FileName.Lasts (n : FileName) : Prop :=
  n.extension ≠ some .deprecated ∧ n.extension ≠ some .ip ∧ n.extension ≠ some .merged

/-- The directory has the same files but for temporary ones. -/
def Preserves (files other : Files) : Prop := ∀ n : FileName, n.Lasts → other.read n = files.read n

/-- The file starts with the word of an SSTable. -/
def Loadable (files : Files) (n : FileName) : Prop :=
  ∃ word rest s, files.read n = some (word ++ rest) ∧ SSTable.Encodes s word

/-- The table is what the complete records at the front of the file come to, and no
bad tag stands behind them. -/
def Replays (files : Files) (n : FileName) (t : Table) : Prop :=
  ∃ content rs tail, files.read n = some content ∧ LongestRecords content rs tail ∧ ¬ BadTag tail ∧ t = replayRecords rs

/-- A directory that can be opened. -/
structure Admitted (files : Files) : Prop where
  counters : ∀ n ∈ files.names, n.extension = some .sst ∨ n.extension = some .txl → n.counter < 2 ^ 31
  ssTables : ∀ n ∈ files.names, n.extension = some .sst → Loadable files n
  logs : ∀ n ∈ files.names, n.extension = some .txl → ∃ t, Replays files n t

/-- The files of an extension in the order of their counters. -/
structure Sorted (files : Files) (ext : FileExt) (names : List FileName) : Prop where
  perm : names.Perm (filesWithExt files ext)
  order : names.Pairwise fun a b => a.counter ≤ b.counter

variable {files other : Files} {ext : FileExt} {names : List FileName}

theorem mem_filesWithExt {n : FileName} : n ∈ filesWithExt files ext ↔ n ∈ files.names ∧ n.extension = some ext := by
  rw [filesWithExt, List.mem_filter, decide_eq_true_eq]

theorem lasts_sst {n : FileName} (isSst : n.extension = some .sst) : n.Lasts := by
  rw [FileName.Lasts, isSst]
  decide

theorem lasts_txl {n : FileName} (isLog : n.extension = some .txl) : n.Lasts := by
  rw [FileName.Lasts, isLog]
  decide

theorem Preserves.mem_names {n : FileName} (preserves : Preserves files other) (lasts : n.Lasts) :
    n ∈ other.names ↔ n ∈ files.names := by
  rw [Directory.mem_names, Directory.mem_names, preserves n lasts]

theorem Preserves.replays {n : FileName} {t : Table} (preserves : Preserves files other) (lasts : n.Lasts) :
    Replays other n t ↔ Replays files n t := by
  rw [Replays, Replays, preserves n lasts]

/-- What the loader makes of a log. -/
theorem load_replays {n : FileName} {t : Table} (member : n ∈ files.names) :
    transactionLog.load n (getFileStream files n) = .ok t ↔ Replays files n t := by
  obtain ⟨content, found⟩ := Directory.mem_names.mp member
  rw [getFileStream, found]
  constructor
  · intro load
    obtain ⟨rs, tail, longest⟩ := exists_longestRecords content
    obtain ⟨throws, loads⟩ := TransactionLogLoader.load_records n rs longest.tail
    rw [← longest.split] at throws loads
    by_cases bad : BadTag tail
    · obtain ⟨msg, fails⟩ := throws bad
      cases fails.symm.trans load
    · exact ⟨content, rs, tail, found, longest, bad, Except.ok.inj (load.symm.trans (loads bad))⟩
  · rintro ⟨other, rs, tail, read, longest, known, rfl⟩
    cases found.symm.trans read
    have loads := (TransactionLogLoader.load_records n rs longest.tail).2 known
    rwa [← longest.split] at loads

theorem Preserves.admitted (preserves : Preserves files other) (admitted : Admitted files) : Admitted other where
  counters n member data := by
    refine admitted.counters n ((preserves.mem_names ?_).mp member) data
    exact data.elim lasts_sst lasts_txl
  ssTables n member isSst := by
    rw [Loadable, preserves n (lasts_sst isSst)]
    exact admitted.ssTables n ((preserves.mem_names (lasts_sst isSst)).mp member) isSst
  logs n member isLog := by
    obtain ⟨t, replays⟩ := admitted.logs n ((preserves.mem_names (lasts_txl isLog)).mp member) isLog
    exact ⟨t, (preserves.replays (lasts_txl isLog)).mpr replays⟩

theorem Preserves.symm (preserves : Preserves files other) : Preserves other files := fun n lasts => (preserves n lasts).symm

theorem Sorted.preserves (preserves : Preserves files other) (lasts : ∀ n : FileName, n.extension = some ext → n.Lasts)
    (sorted : Sorted other ext names) : Sorted files ext names := by
  refine ⟨sorted.perm.trans ?_, sorted.order⟩
  refine (List.perm_ext_iff_of_nodup (other.names_nodup.filter _) (files.names_nodup.filter _)).mpr fun n => ?_
  rw [← filesWithExt, ← filesWithExt, mem_filesWithExt, mem_filesWithExt]
  constructor
  · rintro ⟨member, extended⟩
    exact ⟨(preserves.mem_names (lasts n extended)).mp member, extended⟩
  · rintro ⟨member, extended⟩
    exact ⟨(preserves.mem_names (lasts n extended)).mpr member, extended⟩

/-- Listing files throws only where a counter is not an `int`. -/
theorem getFilesWithExtSorted_cases (files : Files) (ext : FileExt) :
    (∃ names, getFilesWithExtSorted ext files = .ok names files ∧ Sorted files ext names) ∨
      getFilesWithExtSorted ext files = .error .outOfRange files ∧ ∃ n ∈ filesWithExt files ext, 2 ^ 31 ≤ n.counter := by
  have total : Std.Total fun a b : FileName => a.counter ≤ b.counter := ⟨fun a b => Nat.le_total a.counter b.counter⟩
  have trans : IsTrans FileName fun a b => a.counter ≤ b.counter := ⟨fun _ _ _ => Nat.le_trans⟩
  unfold getFilesWithExtSorted
  dsimp only
  split_ifs with large
  · exact Or.inr ⟨rfl, large.2⟩
  · exact Or.inl ⟨_, rfl, List.perm_insertionSort _ _,
      List.pairwise_insertionSort (fun a b : FileName => a.counter ≤ b.counter) _⟩

namespace ProjectDbImpl
variable {cfg : Config} {permit : List SSTable → Nat → Prop} {db next : ProjectDbImpl}

/-- The counter behind sorted names is there unless one of their counters is not an `int`. -/
theorem counterAfter_cases (order : names.Pairwise fun a b => a.counter ≤ b.counter) (base : Nat) (db : ProjectDbImpl) :
    (∃ counter, counterAfter names base db = .ok counter db ∧ ∀ n ∈ names, n.counter < 2 ^ 31) ∨
      counterAfter names base db = .error .outOfRange db ∧ ∃ n ∈ names, 2 ^ 31 ≤ n.counter := by
  rcases List.eq_nil_or_concat' names with rfl | ⟨earlier, last, rfl⟩
  · exact Or.inl ⟨base, rfl, by simp⟩
  · unfold counterAfter getCounterFromFileName
    rw [List.getLast?_concat]
    dsimp only
    split_ifs with small
    · refine Or.inl ⟨_, rfl, fun n member => ?_⟩
      rcases List.mem_append.mp member with before | same
      · exact ((List.pairwise_append.mp order).2.2 n before last (List.mem_singleton_self _)).trans_lt small
      · rwa [List.mem_singleton.mp same]
    · exact Or.inr ⟨rfl, last, by simp, not_lt.mp small⟩

/-- What a database has made of some SSTables and logs of the directory, the
oldest first. -/
structure Reloaded (files : Files) (tables names : List FileName) (db : ProjectDbImpl) : Prop where
  unchanged : db.files = files
  queue : db.ssTableIndexQueue.queue.map (·.ssTableFileName) = tables
  logs : db.memTableQueue.map (·.2.transactionLogFileName) = names
  allocated : ∀ e ∈ db.memTableQueue, e.1.table < db.nextTable
  memory : ∀ e ∈ db.memTableQueue, Replays files e.2.transactionLogFileName (db.tables e.1.table)
  jobs : ∀ job ∈ db.flushToDiskFutures, job.fileName.extension = some .ip
  idle : db.ssTableCompactionFuture = none

section Reload
variable {tables more : List FileName}

theorem Reloaded.ssTable (reloaded : Reloaded files tables names db) {n : FileName} (member : n ∈ files.names) :
    (reloadSSTable cfg n db).EndsIn (fun _ u => Reloaded files (tables ++ [n]) names u ∧ Loadable files n)
      fun _ u => Reloaded files tables names u ∧ ¬ Loadable files n := by
  obtain ⟨same, queue, logs, allocated, memory, jobs, idle⟩ := id reloaded
  obtain ⟨content, found⟩ := Directory.mem_names.mp (same.symm ▸ member)
  rcases loadSSTable_cases cfg.ssTableIndexBlockSizeInBytes found (some .new) with
    ⟨word, rest, s, built, split, known, run, asked, named⟩ | ⟨none, msg, run⟩
  · obtain ⟨i, rfl⟩ := Option.isSome_iff_exists.mp asked
    have load : reloadSSTable cfg n db = .ok () (inserted db i) := by
      simp only [reloadSSTable, DbM.file, bind, EStateM.bind, run]
      rfl
    rw [load]
    refine ⟨⟨same, ?_, logs, allocated, memory, jobs, idle⟩, word, rest, s, ?_, known⟩
    · change (db.ssTableIndexQueue.queue ++ [i]).map _ = _
      rw [List.map_append, queue, List.map_singleton, named i rfl]
    · rw [← same, found, split]
  · have load : reloadSSTable cfg n db = .error (.dbException msg) db := by
      simp only [reloadSSTable, DbM.file, bind, EStateM.bind, run]
    rw [load]
    refine ⟨reloaded, ?_⟩
    rintro ⟨word, rest, s, read, known⟩
    rw [← same, found] at read
    exact none word rest s (Option.some.inj read) known

theorem Reloaded.ssTables (reloaded : Reloaded files tables names db) (listed : ∀ n ∈ more, n ∈ files.names) :
    (reloadSSTables cfg more db).EndsIn
      (fun _ u => Reloaded files (tables ++ more) names u ∧ ∀ n ∈ more, Loadable files n)
      fun _ u => (∃ tables, Reloaded files tables names u) ∧ ∃ n ∈ more, ¬ Loadable files n := by
  induction more generalizing tables db with
  | nil => exact ⟨by rwa [List.append_nil], by simp⟩
  | cons n more ih =>
    refine EStateM.endsIn_bind ((reloaded.ssTable (listed n List.mem_cons_self)).mono (fun _ _ loaded => loaded)
      fun _ u failed => ⟨⟨tables, failed.1⟩, n, List.mem_cons_self, failed.2⟩) fun _ t loaded => ?_
    have later : ∀ m ∈ more, m ∈ files.names := fun m member => listed m (List.mem_cons_of_mem _ member)
    refine (ih loaded.1 later).mono (fun _ u all => ?_) fun _ u failed => ?_
    · rw [List.append_assoc] at all
      exact ⟨all.1, List.forall_mem_cons.mpr ⟨loaded.2, all.2⟩⟩
    · obtain ⟨known, m, member, fails⟩ := failed
      exact ⟨known, m, List.mem_cons_of_mem _ member, fails⟩

/-- The log is pushed as a MemTable if it loads; it is there, so that opening it
for appending does not create it. -/
theorem Reloaded.push (reloaded : Reloaded files tables names db) {n : FileName} (member : n ∈ files.names)
    (isLast : Bool) :
    (MemTableQueue.pushFromTransactionLog transactionLog n isLast db).EndsIn
      (fun job u => (∀ j, job = some j → j.fileName.extension = some .ip) ∧ Reloaded files tables (names ++ [n]) u ∧
        ∃ t, Replays files n t)
      fun _ u => Reloaded files tables names u ∧ ¬ ∃ t, Replays files n t := by
  obtain ⟨same, queue, logs, allocated, memory, jobs, idle⟩ := id reloaded
  obtain ⟨content, found⟩ := Directory.mem_names.mp (same.symm ▸ member)
  have stream : getFileStream db.files n = getFileStream files n := by rw [same]
  cases load : transactionLog.load n (getFileStream files n) with
  | error e =>
    simp only [MemTableQueue.pushFromTransactionLog, MemTableQueue.loadTransactionLog, bind, EStateM.bind, stream, load]
    refine ⟨reloaded, ?_⟩
    rintro ⟨t, replays⟩
    cases load.symm.trans ((load_replays member).mpr replays)
  | ok table =>
    have replays := (load_replays member).mp load
    have pushed : Reloaded files tables (names ++ [n]) { db with
        tables := fun address => if address = db.nextTable then table else db.tables address
        nextTable := db.nextTable + 1
        memTableQueue := db.memTableQueue ++ [(⟨db.nextTable⟩, ⟨n⟩)] } := by
      refine ⟨same, queue, ?_, fun e listed => ?_, fun e listed => ?_, jobs, idle⟩
      · rw [List.map_append, logs, List.map_singleton]
      · rcases List.mem_append.mp listed with old | new
        · exact (allocated e old).trans (Nat.lt_succ_self _)
        · rw [List.mem_singleton.mp new]
          exact Nat.lt_succ_self _
      · rcases List.mem_append.mp listed with old | new
        · simp only [if_neg (allocated e old).ne]
          exact memory e old
        · rw [List.mem_singleton.mp new]
          simp only [if_true]
          exact replays
    obtain ⟨same, queue, logs, allocated, memory, jobs, idle⟩ := id pushed
    simp only [MemTableQueue.pushFromTransactionLog, MemTableQueue.loadTransactionLog, MemTable.create,
      TransactionLogWritter.reopen, MemTableQueue.emplaceBack, DbM.file, DbM.change, openForAppend, bind, EStateM.bind,
      stream, load, found, pure, EStateM.pure]
    cases isLast with
    | true =>
      refine ⟨fun j launched => ?_, pushed, table, replays⟩
      cases launched
    | false =>
      refine ⟨fun j launched => ?_, ⟨same, queue, logs, allocated, memory, jobs, idle⟩, table, replays⟩
      cases launched
      exact FileName.extension_add _ _

/-- The flush job of a log that is not the last one is stored with the others. -/
theorem Reloaded.stored (reloaded : Reloaded files tables names db) {job : FlushJob}
    (temporary : job.fileName.extension = some .ip) :
    Reloaded files tables names { db with flushToDiskFutures := db.flushToDiskFutures ++ [job] } := by
  obtain ⟨same, queue, logs, allocated, memory, jobs, idle⟩ := reloaded
  refine ⟨same, queue, logs, allocated, memory, fun other member => ?_, idle⟩
  rcases List.mem_append.mp member with old | new
  · exact jobs other old
  · rwa [List.mem_singleton.mp new]

theorem Reloaded.transactionLogs (reloaded : Reloaded files tables names db) (listed : ∀ n ∈ more, n ∈ files.names) :
    (reloadTransactionLogs transactionLog more db).EndsIn
      (fun _ u => Reloaded files tables (names ++ more) u ∧ ∀ n ∈ more, ∃ t, Replays files n t)
      fun _ u => (∃ names, Reloaded files tables names u) ∧ ∃ n ∈ more, ¬ ∃ t, Replays files n t := by
  induction more generalizing names db with
  | nil => exact ⟨by rwa [List.append_nil], by simp⟩
  | cons n more ih =>
    refine EStateM.endsIn_bind ((reloaded.push (listed n List.mem_cons_self) more.isEmpty).mono (fun _ _ pushed => pushed)
      fun _ u failed => ⟨⟨names, failed.1⟩, n, List.mem_cons_self, failed.2⟩) fun job t pushed => ?_
    obtain ⟨temporary, now, loads⟩ := pushed
    have onwards (u : ProjectDbImpl) (now : Reloaded files tables (names ++ [n]) u) :
        (reloadTransactionLogs transactionLog more u).EndsIn
          (fun _ u => Reloaded files tables (names ++ n :: more) u ∧
            ∀ m ∈ n :: more, ∃ t, Replays files m t)
          fun _ u => (∃ names, Reloaded files tables names u) ∧
            ∃ m ∈ n :: more, ¬ ∃ t, Replays files m t := by
      refine (ih now fun m member => listed m (List.mem_cons_of_mem _ member)).mono (fun _ x all => ?_) fun _ x failed => ?_
      · rw [List.append_assoc] at all
        exact ⟨all.1, List.forall_mem_cons.mpr ⟨loads, all.2⟩⟩
      · obtain ⟨known, m, member, fails⟩ := failed
        exact ⟨known, m, List.mem_cons_of_mem _ member, fails⟩
    cases job with
    | none => exact onwards t now
    | some job => exact onwards _ (now.stored (temporary job rfl))

/-- The counters do not matter. -/
theorem Reloaded.recount (reloaded : Reloaded files tables names db) (ssTableBase transactionLogBase : Nat) :
    Reloaded files tables names { db with
      ssTableFileCounterBase := ssTableBase, transactionLogFileCounterBase := transactionLogBase } :=
  ⟨reloaded.unchanged, reloaded.queue, reloaded.logs, reloaded.allocated, reloaded.memory, reloaded.jobs, reloaded.idle⟩

/-- Loading succeeds on the directories that are admitted, and on no other. -/
theorem reload_cases (cfg : Config) (empty : Reloaded files [] [] db) :
    (reload cfg transactionLog db).EndsIn
      (fun _ u => Admitted files ∧ ∃ tables names, Sorted files .sst tables ∧ Sorted files .txl names ∧
        Reloaded files tables names u)
      fun _ u => ¬ Admitted files ∧ ∃ tables names, Reloaded files tables names u := by
  have stuck {ext : FileExt} (data : ext = .sst ∨ ext = .txl) (large : ∃ n ∈ filesWithExt files ext, 2 ^ 31 ≤ n.counter) :
      ¬ Admitted files := by
    intro admitted
    obtain ⟨n, listed, large⟩ := large
    obtain ⟨member, extended⟩ := mem_filesWithExt.mp listed
    have small := admitted.counters n member (data.imp (fun same => extended.trans (congrArg some same))
      fun same => extended.trans (congrArg some same))
    omega
  have listing (ext : FileExt) (data : ext = .sst ∨ ext = .txl) {tables names : List FileName} {u : ProjectDbImpl}
      (now : Reloaded files tables names u) :
      (DbM.file (getFilesWithExtSorted ext) u).EndsIn (fun found v => v = u ∧ Sorted files ext found)
        fun _ v => ¬ Admitted files ∧ ∃ tables names, Reloaded files tables names v := by
    have same : u.files = files := now.unchanged
    rcases getFilesWithExtSorted_cases u.files ext with ⟨found, run, sorted⟩ | ⟨run, large⟩
    · simp only [DbM.file, run]
      exact ⟨rfl, same ▸ sorted⟩
    · simp only [DbM.file, run]
      exact ⟨stuck data (same ▸ large), tables, names, now⟩
  have counting {ext : FileExt} (data : ext = .sst ∨ ext = .txl) {found tables names : List FileName} {u : ProjectDbImpl}
      (sorted : Sorted files ext found) (now : Reloaded files tables names u) (base : Nat) :
      (counterAfter found base u).EndsIn (fun _ v => v = u ∧ ∀ n ∈ found, n.counter < 2 ^ 31)
        fun _ v => ¬ Admitted files ∧ ∃ tables names, Reloaded files tables names v := by
    rcases counterAfter_cases sorted.order base u with ⟨counter, run, small⟩ | ⟨run, n, member, large⟩
    · rw [run]
      exact ⟨rfl, small⟩
    · rw [run]
      exact ⟨stuck data ⟨n, sorted.perm.subset member, large⟩, tables, names, now⟩
  refine EStateM.endsIn_bind (listing .sst (Or.inl rfl) empty) ?_
  rintro ssTableFiles _ ⟨rfl, ssTables⟩
  have tablesThere : ∀ n ∈ ssTableFiles, n ∈ files.names := fun n member =>
    (mem_filesWithExt.mp (ssTables.perm.subset member)).1
  refine EStateM.endsIn_bind ((empty.ssTables tablesThere).mono (fun _ _ loaded => loaded) fun _ u failed => ?_)
    fun _ t loaded => ?_
  · obtain ⟨⟨tables, now⟩, n, member, fails⟩ := failed
    obtain ⟨listed, isSst⟩ := mem_filesWithExt.mp (ssTables.perm.subset member)
    exact ⟨fun admitted => fails (admitted.ssTables n listed isSst), tables, [], now⟩
  obtain ⟨now, loadable⟩ := loaded
  refine EStateM.endsIn_bind (Q := fun _ u => u = t) rfl ?_
  rintro current _ rfl
  refine EStateM.endsIn_bind (counting (Or.inl rfl) ssTables now _) ?_
  rintro counter _ ⟨rfl, smallTables⟩
  refine EStateM.endsIn_bind (Q := fun _ u => Reloaded files ssTableFiles [] u) (now.recount counter _) fun _ t now => ?_
  refine EStateM.endsIn_bind (listing .txl (Or.inr rfl) now) ?_
  rintro transactionLogFiles _ ⟨rfl, logs⟩
  have logsThere : ∀ n ∈ transactionLogFiles, n ∈ files.names := fun n member =>
    (mem_filesWithExt.mp (logs.perm.subset member)).1
  refine EStateM.endsIn_bind ((now.transactionLogs logsThere).mono (fun _ _ loaded => loaded) fun _ u failed => ?_)
    fun _ t loaded => ?_
  · obtain ⟨⟨names, now⟩, n, member, fails⟩ := failed
    obtain ⟨listed, isLog⟩ := mem_filesWithExt.mp (logs.perm.subset member)
    exact ⟨fun admitted => fails (admitted.logs n listed isLog), ssTableFiles, names, now⟩
  obtain ⟨now, loads⟩ := loaded
  refine EStateM.endsIn_bind (Q := fun _ u => u = t) rfl ?_
  rintro current _ rfl
  refine EStateM.endsIn_bind (counting (Or.inr rfl) logs now _) ?_
  rintro counter _ ⟨rfl, smallLogs⟩
  refine ⟨⟨fun n member data => ?_, fun n member isSst => ?_, fun n member isLog => ?_⟩,
    ssTableFiles, transactionLogFiles, ssTables, logs, now.recount _ counter⟩
  · rcases data with isSst | isLog
    · exact smallTables n (ssTables.perm.mem_iff.mpr (mem_filesWithExt.mpr ⟨member, isSst⟩))
    · exact smallLogs n (logs.perm.mem_iff.mpr (mem_filesWithExt.mpr ⟨member, isLog⟩))
  · exact loadable n (ssTables.perm.mem_iff.mpr (mem_filesWithExt.mpr ⟨member, isSst⟩))
  · exact loads n (logs.perm.mem_iff.mpr (mem_filesWithExt.mpr ⟨member, isLog⟩))

end Reload

section Init
variable {ssTableBase transactionLogBase : Nat} {cleared : List FileExt}

/-- While temporary files are removed: those of some extensions are gone, and no other file is. -/
structure Clearing (files : Files) (ssTableBase transactionLogBase : Nat) (cleared : List FileExt)
    (db : ProjectDbImpl) : Prop where
  opening : Opening files ssTableBase transactionLogBase db
  preserves : Preserves files db.files
  gone : ∀ n ∈ db.files.names, ∀ ext ∈ cleared, n.extension ≠ some ext

/-- Without jobs, only time passes beside the database. -/
theorem Opening.still (opening : Opening files ssTableBase transactionLogBase db) (step : Others cfg permit db next) :
    next.files = db.files := by
  obtain ⟨⟨now, fresh⟩, _⟩ := opening
  obtain ⟨kind, step, _⟩ := step
  cases step with
  | tick => rfl
  | clean running =>
    rw [fresh] at running
    obtain ⟨job, member, _⟩ | ⟨job, launched, _⟩ := running
    · cases member
    · cases launched
  | flush split =>
    rw [fresh] at split
    simp [ProjectDbImpl.fresh] at split
  | compaction launched =>
    rw [fresh] at launched
    cases launched

theorem Clearing.step (clearing : Clearing files ssTableBase transactionLogBase cleared db)
    (step : Others cfg permit db next) : Clearing files ssTableBase transactionLogBase cleared next := by
  have same := clearing.opening.still step
  exact ⟨clearing.opening.step step, same ▸ clearing.preserves, same ▸ clearing.gone⟩

theorem Clearing.remove {ext : FileExt} (temporary : ext = .deprecated ∨ ext = .ip ∨ ext = .merged) {n : FileName}
    (clearing : Clearing files ssTableBase transactionLogBase cleared db) (extended : n.extension = some ext) :
    Clearing files ssTableBase transactionLogBase cleared { db with files := db.files.remove n } := by
  refine ⟨clearing.opening.remove ?_ db n extended, fun other lasts => ?_, fun other member => ?_⟩
  · rcases temporary with rfl | rfl | rfl <;> decide
  · change (db.files.remove n).read other = _
    rw [Directory.read_remove, if_neg, clearing.preserves other lasts]
    rintro rfl
    obtain ⟨notDeprecated, notIp, notMerged⟩ := lasts
    rcases temporary with rfl | rfl | rfl
    · exact notDeprecated extended
    · exact notIp extended
    · exact notMerged extended
  · exact clearing.gone other (Directory.mem_names_remove.mp member).2

/-- Removing some files that include all of an extension. -/
theorem removeAll_clears {ext : FileExt} (temporary : ext = .deprecated ∨ ext = .ip ∨ ext = .merged)
    (extended : ∀ n ∈ names, n.extension = some ext)
    (clearing : Clearing files ssTableBase transactionLogBase cleared db)
    (covers : ∀ n ∈ db.files.names, n.extension = some ext → n ∈ names) :
    (removeAll names).Safe (Others cfg permit) (fun t => Preserves files t.files) raised
      (fun _ => Clearing files ssTableBase transactionLogBase (ext :: cleared)) db := by
  have lasting (left : List FileName) : Prog.Assertion (Others cfg permit) (fun t => Preserves files t.files) fun t =>
      Clearing files ssTableBase transactionLogBase cleared t ∧ ∀ n ∈ t.files.names, n.extension = some ext → n ∈ left := by
    refine ⟨?_, fun _ now => now.1.preserves⟩
    rintro s t ⟨now, covered⟩ step
    exact ⟨now.step step, now.opening.still step ▸ covered⟩
  induction names generalizing db with
  | nil =>
    refine Prog.Safe.ret ⟨fun _ _ now step => now.step step, fun _ now => now.preserves⟩
      ⟨clearing.opening, clearing.preserves, fun n member other listed => ?_⟩
    rcases List.mem_cons.mp listed with rfl | old
    · exact fun extension => absurd (covers n member extension) List.not_mem_nil
    · exact clearing.gone n member other old
  | cons name names ih =>
    refine Prog.Safe.bind (Prog.Safe.atomic (Q := fun _ t => Clearing files ssTableBase transactionLogBase cleared t ∧
      ∀ n ∈ t.files.names, n.extension = some ext → n ∈ names) (lasting (name :: names)) (fun _ => lasting names)
      ⟨clearing, covers⟩ fun t now => ?_) fun _ t now => ?_
    · refine ⟨(), _, rfl, now.1.remove temporary (extended name List.mem_cons_self), fun n member extension => ?_⟩
      obtain ⟨other, member⟩ := Directory.mem_names_remove.mp member
      exact (List.mem_cons.mp (now.2 n member extension)).resolve_left other
    · exact ih (fun n member => extended n (List.mem_cons_of_mem _ member)) now.1 now.2

theorem removeFilesWithExt_clears {ext : FileExt} (temporary : ext = .deprecated ∨ ext = .ip ∨ ext = .merged)
    (clearing : Clearing files ssTableBase transactionLogBase cleared db) :
    (removeFilesWithExt ext).Safe (Others cfg permit) (fun t => Preserves files t.files) raised
      (fun _ => Clearing files ssTableBase transactionLogBase (ext :: cleared)) db := by
  have lasting (names : List FileName) : Prog.Assertion (Others cfg permit) (fun t => Preserves files t.files) fun t =>
      Clearing files ssTableBase transactionLogBase cleared t ∧ names = filesWithExt t.files ext := by
    refine ⟨?_, fun _ now => now.1.preserves⟩
    rintro s t ⟨now, same⟩ step
    exact ⟨now.step step, now.opening.still step ▸ same⟩
  refine Prog.Safe.bind (Prog.Safe.readAs (Q := fun names t => Clearing files ssTableBase transactionLogBase cleared t ∧
    names = filesWithExt t.files ext) (P := Clearing files ssTableBase transactionLogBase cleared)
    ⟨fun _ _ now step => now.step step, fun _ now => now.preserves⟩ lasting clearing fun t now => ⟨now, rfl⟩) ?_
  rintro names t ⟨now, rfl⟩
  exact removeAll_clears temporary (fun n member => (mem_filesWithExt.mp member).2) now fun n member extension =>
    mem_filesWithExt.mpr ⟨member, extension⟩

/-- The files of the directory stay: only flush jobs run, and they write temporary files. -/
structure Retains (files : Files) (db : ProjectDbImpl) : Prop where
  preserves : Preserves files db.files
  jobs : ∀ job ∈ db.flushToDiskFutures, job.fileName.extension = some .ip
  idle : db.ssTableCompactionFuture = none

theorem Retains.step (retains : Retains files db) (step : Others cfg permit db next) : Retains files next := by
  obtain ⟨preserves, jobs, idle⟩ := retains
  obtain ⟨kind, step, _⟩ := step
  cases step with
  | tick => exact ⟨preserves, jobs, idle⟩
  | @clean _ name running deprecated =>
    refine ⟨fun n lasts => ?_, jobs, idle⟩
    change (db.files.remove name).read n = _
    rw [Directory.read_remove, if_neg, preserves n lasts]
    rintro rfl
    exact lasts.1 deprecated
  | @flush _ before after job index _ split running write =>
    obtain ⟨_, _, rfl⟩ := writeSSTable_spec write
    rw [split] at jobs
    obtain ⟨early, late⟩ := List.forall_mem_append.mp jobs
    obtain ⟨isIp, late⟩ := List.forall_mem_cons.mp late
    refine ⟨fun n lasts => ?_, List.forall_mem_append.mpr ⟨early, List.forall_mem_cons.mpr ⟨isIp, late⟩⟩, idle⟩
    change (db.files.write job.fileName _).read n = _
    rw [Directory.read_write, if_neg, preserves n lasts]
    rintro rfl
    exact lasts.2.1 isIp
  | compaction launched =>
    rw [idle] at launched
    cases launched

/-- A database on a directory: its SSTables and its logs are those of the directory, in
the order of their counters, and every MemTable is what its log loads to. There are
temporary files only of the flush jobs. -/
structure OpenedFrom (files : Files) (db : ProjectDbImpl) : Prop where
  retains : Retains files db
  temporary : ∀ n ∈ db.files.names, ¬ n.Lasts → n ∈ db.flushToDiskFutures.map (·.fileName)
  ssTables : Sorted files .sst (db.ssTableIndexQueue.queue.map (·.ssTableFileName))
  logs : Sorted files .txl (db.memTableQueue.map (·.2.transactionLogFileName))
  memory : ∀ e ∈ db.memTableQueue, Replays files e.2.transactionLogFileName (db.tables e.1.table)

theorem OpenedFrom.step (opened : OpenedFrom files db) (step : Others cfg permit db next) : OpenedFrom files next := by
  have retains := opened.retains.step step
  obtain ⟨⟨_, _, idle⟩, temporary, ssTables, logs, memory⟩ := opened
  obtain ⟨kind, step, _⟩ := step
  cases step with
  | tick => exact ⟨retains, temporary, ssTables, logs, memory⟩
  | clean => exact ⟨retains, fun n member => temporary n (Directory.mem_names_remove.mp member).2, ssTables, logs, memory⟩
  | @flush _ before after job index _ split running write =>
    obtain ⟨_, _, rfl⟩ := writeSSTable_spec write
    refine ⟨retains, fun n member short => ?_, ssTables, logs, memory⟩
    have names : (before ++ { job with future := .ready (.ok index) } :: after).map (·.fileName) =
        db.flushToDiskFutures.map (·.fileName) := by
      rw [split, List.map_append, List.map_append, List.map_cons, List.map_cons]
    rw [names]
    rcases Directory.mem_names_write.mp member with rfl | old
    · rw [split]
      exact List.mem_map_of_mem (by simp)
    · exact temporary n old short
  | compaction launched =>
    rw [idle] at launched
    cases launched

/-- The steps of opening: temporary files go, and the directory is loaded if it can be. -/
theorem init_opens (cfg : Config) (permit : List SSTable → Nat → Prop) (files : Files) (now : UInt64)
    (ssTableBase transactionLogBase : Nat) :
    (init cfg transactionLog).Safe (Others cfg permit) (fun t => Preserves files t.files) (fun _ => ¬ Admitted files)
      (fun _ t => Admitted files ∧ OpenedFrom files t) (fresh files now ssTableBase transactionLogBase) := by
  have start : Clearing files ssTableBase transactionLogBase [] (fresh files now ssTableBase transactionLogBase) :=
    ⟨⟨⟨now, rfl⟩, fun _ _ => rfl⟩, fun _ _ => rfl, by simp⟩
  refine (removeFilesWithExt_clears (by simp) start).bind fun _ t first => ?_
  refine (removeFilesWithExt_clears (by simp) first).bind fun _ t second => ?_
  refine (removeFilesWithExt_clears (by simp) second).bind fun _ t third => ?_
  refine Prog.Safe.attempt ⟨fun _ _ now step => now.step step, fun _ now => now.preserves⟩
    (fun _ => Prog.Assertion.and_pure ⟨fun _ _ now step => now.step step, fun _ now => now.retains.preserves⟩ _)
    (show Prog.Assertion _ _ (Retains files) from ⟨fun _ _ now step => now.step step, fun _ now => now.preserves⟩)
    third fun u now => ?_
  obtain ⟨⟨⟨time, clear⟩, _⟩, preserves, gone⟩ := now
  have empty : Reloaded u.files [] [] u := by
    rw [clear]
    exact ⟨rfl, rfl, rfl, by simp [fresh], by simp [fresh], by simp [fresh], rfl⟩
  have loaded := reload_cases cfg empty
  cases run : reload cfg transactionLog u with
  | ok a v =>
    rw [run] at loaded
    obtain ⟨admitted, tables, names, ssTables, logs, ⟨same, queue, named, _, memory, jobs, idle⟩⟩ := loaded
    refine ⟨preserves.symm.admitted admitted, ⟨same ▸ preserves, jobs, idle⟩, fun n member short => ?_, ?_, ?_,
      fun e listed => ?_⟩
    · rw [same] at member
      exact absurd ⟨gone n member .deprecated (by simp), gone n member .ip (by simp), gone n member .merged (by simp)⟩ short
    · rw [queue]
      exact ssTables.preserves preserves fun _ => lasts_sst
    · rw [named]
      exact logs.preserves preserves fun _ => lasts_txl
    · have isName : e.2.transactionLogFileName ∈ names := named ▸ List.mem_map_of_mem listed
      have isLog := (mem_filesWithExt.mp (logs.perm.subset isName)).2
      exact (preserves.replays (lasts_txl isLog)).mp (memory e listed)
  | error e v =>
    rw [run] at loaded
    obtain ⟨fails, tables, names, ⟨same, _, _, _, _, jobs, idle⟩⟩ := loaded
    exact ⟨fun admitted => fails (preserves.admitted admitted), same ▸ preserves, jobs, idle⟩

/-- Opening an arbitrary directory among the steps of its jobs. At every point of every
execution the directory has lost temporary files only. It returns only on a directory that
is admitted, and on that it stands for the directory; it throws only on one that is
not; and alone, it returns on every directory that is admitted. -/
theorem init_admits (cfg : Config) (permit : List SSTable → Nat → Prop) (files : Files) (now : UInt64)
    (ssTableBase transactionLogBase : Nat) :
    (∀ p t, Prog.Reaches (Others cfg permit) (init cfg transactionLog) (fresh files now ssTableBase transactionLogBase) p t →
      Preserves files t.files ∧ (∀ a, p = .ret a → Admitted files ∧ OpenedFrom files t) ∧
        ∀ e, p = .throw e → ¬ Admitted files) ∧
      ((∃ t, (init cfg transactionLog).run (fresh files now ssTableBase transactionLogBase) = .ok () t) ↔
        Admitted files) := by
  have safe := init_opens cfg permit files now ssTableBase transactionLogBase
  constructor
  · intro p t path
    have there := safe.reaches path
    refine ⟨there.now, ?_, ?_⟩
    · rintro a rfl
      exact there.returned
    · rintro e rfl
      exact there.2
  · have ends := safe.run
    cases run : (init cfg transactionLog).run (fresh files now ssTableBase transactionLogBase) with
    | ok a t =>
      rw [run] at ends
      exact ⟨fun _ => ends.1, fun _ => ⟨t, rfl⟩⟩
    | error e t =>
      rw [run] at ends
      refine ⟨?_, fun admitted => absurd admitted ends⟩
      rintro ⟨u, none⟩
      contradiction

end Init

end ProjectDbImpl
end ProjectDb
