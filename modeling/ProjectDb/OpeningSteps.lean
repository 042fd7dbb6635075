import ProjectDb.JobWrites
import ProjectDb.Admission
import ProjectDb.Foundation.Reduction

namespace ProjectDb
namespace ProjectDbImpl

section Stepwise
variable (cfg : Config) (fmt : LogFormat)

/-- The loop of `init` over the SSTables, as one action for each. -/
def reloadSSTablesStepwise : List FileName → DbProg Unit
  | [] => pure ()
  | name :: rest => do
    .atomic (reloadSSTable cfg name)
    reloadSSTablesStepwise rest

/-- Launch the flush of a MemTable that has been loaded, unless its log is the
last one, and store its future. -/
def launchReloaded (memTable : MemTable) (isLastTransactionLog : Bool) : DbM Unit :=
  if isLastTransactionLog then pure () else do
    let job ← MemTableQueue.launchFlushToDisk memTable
    DbM.change fun db => { db with flushToDiskFutures := db.flushToDiskFutures ++ [job] }

/-- The loop of `init` over the logs: each is loaded, gets its MemTable and is
opened again, and all but the last are flushed. -/
def reloadTransactionLogsStepwise : List FileName → DbProg Unit
  | [] => pure ()
  | name :: rest => do
    let table ← .atomic (MemTableQueue.loadTransactionLog fmt name)
    let memTable ← .atomic (MemTable.create table)
    let writter ← .atomic (TransactionLogWritter.reopen name)
    .atomic (MemTableQueue.emplaceBack memTable writter)
    .atomic (launchReloaded memTable rest.isEmpty)
    reloadTransactionLogsStepwise rest

def raiseSSTableCounter (names : List FileName) : DbM Unit := do
  let db ← DbM.current
  let counter ← counterAfter names db.ssTableFileCounterBase
  DbM.change fun db => { db with ssTableFileCounterBase := counter }

def raiseTransactionLogCounter (names : List FileName) : DbM Unit := do
  let db ← DbM.current
  let counter ← counterAfter names db.transactionLogFileCounterBase
  DbM.change fun db => { db with transactionLogFileCounterBase := counter }

/-- `init` with an action for each file that it loads: the jobs that it has
launched run beside the rest of its loop. -/
def initStepwise : DbProg Unit := do
  removeFilesWithExt .deprecated
  removeFilesWithExt .ip
  removeFilesWithExt .merged
  let ssTableFiles ← .atomic (DbM.file (getFilesWithExtSorted .sst))
  reloadSSTablesStepwise cfg ssTableFiles
  .atomic (raiseSSTableCounter ssTableFiles)
  let transactionLogFiles ← .atomic (DbM.file (getFilesWithExtSorted .txl))
  reloadTransactionLogsStepwise fmt transactionLogFiles
  .atomic (raiseTransactionLogCounter transactionLogFiles)

theorem run_reloadSSTablesStepwise (names : List FileName) :
    (reloadSSTablesStepwise cfg names).run = reloadSSTables cfg names := by
  induction names with
  | nil => rfl
  | cons name rest ih => rw [reloadSSTablesStepwise, reloadSSTables, Prog.run_seq, Prog.run_atomic, ih]

theorem run_reloadTransactionLogsStepwise (names : List FileName) :
    (reloadTransactionLogsStepwise fmt names).run = reloadTransactionLogs fmt names := by
  induction names with
  | nil => rfl
  | cons name rest ih =>
    simp only [reloadTransactionLogsStepwise, reloadTransactionLogs, MemTableQueue.pushFromTransactionLog, launchReloaded,
      Prog.run_seq, Prog.run_atomic, ih, bind_assoc]
    cases rest.isEmpty <;> simp

/-- Without jobs in between, `init` is the same in one action or in many. -/
theorem run_initStepwise : (initStepwise cfg fmt).run = (init cfg fmt).run := by
  simp only [initStepwise, init, reload, raiseSSTableCounter, raiseTransactionLogCounter, Prog.run_seq, Prog.run_atomic,
    run_reloadSSTablesStepwise, run_reloadTransactionLogsStepwise, bind_assoc]

end Stepwise

section Moving
variable {cfg : Config} {fmt : LogFormat} {permit : List SSTable → Nat → Prop} {first : Files} {names : List FileName}
  {n : FileName} {s t u db : ProjectDbImpl}

/-- A database that is being opened on `first`: it has no compaction, and its
jobs flush tables that it has created. -/
structure Reloading (first : Files) (db : ProjectDbImpl) : Prop where
  idle : db.ssTableCompactionFuture = none
  jobs : ∀ job ∈ db.flushToDiskFutures, job.table < db.nextTable ∧ job.fileName.extension = some .ip
  files : Preserves first db.files

theorem preserves_write {files : Files} {bytes : List Byte} (preserves : Preserves first files)
    (isIp : n.extension = some .ip) : Preserves first (files.write n bytes) := by
  intro m lasts
  rw [Directory.read_write, if_neg]
  · exact preserves m lasts
  · rintro rfl
    exact lasts.2.1 isIp

theorem preserves_remove {files : Files} (preserves : Preserves first files) (temporary : ¬ n.Lasts) :
    Preserves first (files.remove n) := by
  intro m lasts
  rw [Directory.read_remove, if_neg]
  · exact preserves m lasts
  · rintro rfl
    exact temporary lasts

theorem Reloading.stable : Prog.Stable (Working cfg permit) (Reloading first) := by
  intro s t reloading step
  obtain ⟨idle, jobs, files⟩ := reloading
  cases step with
  | writing bytes half =>
    obtain ⟨job, member, _, rfl⟩ := half.job idle
    exact ⟨idle, jobs, preserves_write files (jobs job member).2⟩
  | finishing others =>
    obtain ⟨kind, step, _⟩ := others
    cases step with
    | tick => exact ⟨idle, jobs, files⟩
    | clean _ deprecated => exact ⟨idle, jobs, preserves_remove files fun lasts => lasts.1 deprecated⟩
    | @flush _ before after job index left split running write =>
      obtain ⟨_, _, rfl⟩ := writeSSTable_spec write
      have known := jobs job (by rw [split]; simp)
      refine ⟨idle, fun other member => ?_, preserves_write files known.2⟩
      rcases List.mem_append.mp member with low | high
      · exact jobs other (by rw [split]; exact List.mem_append_left _ low)
      · rcases List.mem_cons.mp high with rfl | high
        · exact known
        · exact jobs other (by rw [split]; exact List.mem_append_right _ (List.mem_cons_of_mem _ high))
    | compaction launched =>
      rw [idle] at launched
      cases launched

/-- The fields that no job writes. -/
structure Memory where
  tables : Nat → Table
  nextTable : Nat
  ssTableFileCounterBase : Nat
  transactionLogFileCounterBase : Nat
  memTableQueue : List (MemTable × TransactionLogWritter)

def memory (db : ProjectDbImpl) : Memory :=
  ⟨db.tables, db.nextTable, db.ssTableFileCounterBase, db.transactionLogFileCounterBase, db.memTableQueue⟩

theorem Working.memory (step : Working cfg permit t u) : u.memory = t.memory := by
  cases step with
  | writing => rfl
  | finishing others =>
    obtain ⟨kind, step, _⟩ := others
    cases step <;> rfl

/-- The state with other values in those fields, and further jobs. -/
def regrown (memory : Memory) (launched : List FlushJob) (db : ProjectDbImpl) : ProjectDbImpl :=
  { db with
    tables := memory.tables
    nextTable := memory.nextTable
    ssTableFileCounterBase := memory.ssTableFileCounterBase
    transactionLogFileCounterBase := memory.transactionLogFileCounterBase
    memTableQueue := memory.memTableQueue
    flushToDiskFutures := db.flushToDiskFutures ++ launched }

theorem regrown_memory (db : ProjectDbImpl) : db.regrown db.memory [] = db := by
  simp only [regrown, memory, List.append_nil]

/-- A step of the jobs can be taken after the database has grown by MemTables and
jobs as well as before. -/
theorem Working.regrown {memory : Memory} {launched : List FlushJob} (step : Working cfg permit t u)
    (idle : t.ssTableCompactionFuture = none)
    (kept : ∀ job ∈ t.flushToDiskFutures, memory.tables job.table = t.tables job.table) :
    Working cfg permit (t.regrown memory launched) (u.regrown memory launched) := by
  cases step with
  | writing bytes half =>
    obtain ⟨job, member, running, rfl⟩ := half.job idle
    exact Working.writing bytes (Or.inl ⟨job, List.mem_append_left _ member, running, rfl⟩)
  | finishing others =>
    obtain ⟨kind, step, permitted⟩ := others
    refine .finishing ⟨kind, ?_, fun isCompaction => ?_⟩
    · cases step with
      | tick _ now => exact .tick (t.regrown memory launched) now
      | clean running deprecated =>
        refine JobStep.clean ?_ deprecated
        rcases running with ⟨job, member, running⟩ | ⟨job, same, running⟩
        · exact Or.inl ⟨job, List.mem_append_left _ member, running⟩
        · exact Or.inr ⟨job, same, running⟩
      | @flush _ before after job index left split running write =>
        have same : (t.regrown memory launched).flushedTable job = t.flushedTable job :=
          congrArg (SSTable.mk ⟨t.now⟩) (kept job (by rw [split]; simp))
        have grown : (t.regrown memory launched).flushToDiskFutures = before ++ job :: (after ++ launched) := by
          change t.flushToDiskFutures ++ launched = _
          rw [split, List.append_assoc, List.cons_append]
        have flushes : JobStep cfg .flush (t.regrown memory launched) { t.regrown memory launched with
            files := left
            flushToDiskFutures := before ++ { job with future := .ready (.ok index) } :: (after ++ launched) } :=
          .flush grown running (same ▸ write)
        have next : ProjectDbImpl.regrown memory launched { t with
            files := left
            flushToDiskFutures := before ++ { job with future := .ready (.ok index) } :: after } =
              { t.regrown memory launched with
                files := left
                flushToDiskFutures := before ++ { job with future := .ready (.ok index) } :: (after ++ launched) } := by
          simp only [ProjectDbImpl.regrown, List.append_assoc, List.cons_append]
        rw [next]
        exact flushes
      | compaction same =>
        rw [idle] at same
        cases same
    · subst isCompaction
      cases step with
      | compaction same =>
        rw [idle] at same
        cases same

/-- What an action of the loop over the logs may do to the fields that no job writes. -/
structure Adds (before after : Memory) (launched : List FlushJob) : Prop where
  tables : ∀ address < before.nextTable, after.tables address = before.tables address
  nextTable : before.nextTable ≤ after.nextTable
  jobs : ∀ job ∈ launched, job.table < after.nextTable ∧ job.fileName.extension = some .ip

theorem Adds.refl (memory : Memory) : Adds memory memory [] :=
  ⟨fun _ _ => rfl, le_rfl, fun _ member => absurd member List.not_mem_nil⟩

def grown {α : Type} (db : ProjectDbImpl) :
    Except Exn (α × Memory × List FlushJob) → EStateM.Result Exn ProjectDbImpl α
  | .ok (a, memory, launched) => .ok a (db.regrown memory launched)
  | .error e => .error e db

/-- An action that depends on those fields alone, and only adds to them. -/
def Extends {α : Type} (P : ProjectDbImpl → Prop) (f : DbM α) : Prop :=
  ∃ result : Memory → Except Exn (α × Memory × List FlushJob), ∀ db, P db → f db = db.grown (result db.memory) ∧
    ∀ a memory launched, result db.memory = .ok (a, memory, launched) → Adds db.memory memory launched

theorem Reloading.regrown {memory : Memory} {launched : List FlushJob} (reloading : Reloading first db)
    (adds : Adds db.memory memory launched) : Reloading first (db.regrown memory launched) := by
  refine ⟨reloading.idle, fun job member => ?_, reloading.files⟩
  rcases List.mem_append.mp member with old | new
  · exact ⟨(reloading.jobs job old).1.trans_le adds.nextTable, (reloading.jobs job old).2⟩
  · exact adds.jobs job new

/-- Such an action may be taken before the steps of the jobs. -/
theorem Extends.outruns {α : Type} {f : DbM α} {P : ProjectDbImpl → Prop} (adding : Extends P f)
    (stable : Prog.Stable (Working cfg permit) P) (within : ∀ t, P t → Reloading first t) (holds : P s) :
    (Prog.atomic f).Outruns (Working cfg permit) (Reloading first) s := by
  obtain ⟨result, effect⟩ := adding
  refine Prog.Outruns.atomic stable holds (fun t u now step => ?_) (within s holds) ?_
  · obtain ⟨here, adds⟩ := effect t now
    have there := (effect u (stable now step)).1
    rw [step.memory] at there
    rw [here, there]
    cases same : result t.memory with
    | error e => exact .error e (.single step)
    | ok outcome =>
      obtain ⟨a, memory, launched⟩ := outcome
      have known := adds a memory launched same
      exact .ok rfl (.single (step.regrown (within t now).idle fun job member =>
        known.tables _ ((within t now).jobs job member).1))
  · obtain ⟨here, adds⟩ := effect s holds
    unfold EStateM.left
    rw [here]
    cases same : result s.memory with
    | error e => exact within s holds
    | ok outcome =>
      obtain ⟨a, memory, launched⟩ := outcome
      exact (within s holds).regrown (adds a memory launched same)

theorem Extends.after {α : Type} {f : DbM α} {P : ProjectDbImpl → Prop} {a : α} (adding : Extends P f)
    (within : ∀ t, P t → Reloading first t) (holds : P s) (run : f s = .ok a u) :
    Reloading first u ∧ s.nextTable ≤ u.nextTable := by
  obtain ⟨result, effect⟩ := adding
  obtain ⟨here, adds⟩ := effect s holds
  rw [here] at run
  cases same : result s.memory with
  | error e =>
    rw [same] at run
    cases run
  | ok outcome =>
    obtain ⟨b, memory, launched⟩ := outcome
    have known := adds b memory launched same
    rw [same] at run
    cases run
    exact ⟨(within s holds).regrown known, known.nextTable⟩

section Logs

/-- While the database is being opened, with a MemTable that it has created. -/
def HasTable (first : Files) (memTable : MemTable) (db : ProjectDbImpl) : Prop :=
  Reloading first db ∧ memTable.table < db.nextTable

theorem HasTable.stable (memTable : MemTable) : Prog.Stable (Working cfg permit) (HasTable first memTable) := by
  intro s t now step
  have same := congrArg Memory.nextTable step.memory
  exact ⟨Reloading.stable now.1 step, now.2.trans_eq same.symm⟩

theorem loadTransactionLog_extends (fmt : LogFormat) (isLog : n.extension = some .txl) :
    Extends (Reloading first) (MemTableQueue.loadTransactionLog fmt n) := by
  refine ⟨fun memory => (fmt.load n (getFileStream first n)).map fun table => (table, memory, []), fun db now => ⟨?_, ?_⟩⟩
  · have same : getFileStream db.files n = getFileStream first n := by
      rw [getFileStream, getFileStream, now.files n (lasts_txl isLog)]
    unfold MemTableQueue.loadTransactionLog
    rw [same]
    cases fmt.load n (getFileStream first n) with
    | error e => rfl
    | ok table => exact congrArg (EStateM.Result.ok table) db.regrown_memory.symm
  · intro a memory launched same
    cases load : fmt.load n (getFileStream first n) with
    | error e =>
      rw [load] at same
      cases same
    | ok table =>
      rw [load] at same
      cases same
      exact .refl _

theorem create_extends (table : Table) : Extends (Reloading first) (MemTable.create table) := by
  refine ⟨fun memory => .ok (⟨memory.nextTable⟩, { memory with
    tables := fun address => if address = memory.nextTable then table else memory.tables address
    nextTable := memory.nextTable + 1 }, []), fun db now => ⟨?_, ?_⟩⟩
  · simp only [MemTable.create, grown, regrown, memory, List.append_nil]
    rfl
  · intro a memory launched same
    cases same
    exact ⟨fun address below => if_neg below.ne, Nat.le_succ _, fun _ member => absurd member List.not_mem_nil⟩

theorem reopen_extends (isLog : n.extension = some .txl) {bytes : List Byte} (found : first.read n = some bytes) :
    Extends (Reloading first) (TransactionLogWritter.reopen n) := by
  refine ⟨fun memory => .ok (⟨n⟩, memory, []), fun db now => ⟨?_, ?_⟩⟩
  · have there : db.files.read n = some bytes := (now.files n (lasts_txl isLog)).trans found
    simp only [TransactionLogWritter.reopen, DbM.file, openForAppend, there, bind, EStateM.bind, grown, regrown_memory]
    rfl
  · intro a memory launched same
    cases same
    exact .refl _

theorem emplaceBack_extends (P : ProjectDbImpl → Prop) (memTable : MemTable) (writter : TransactionLogWritter) :
    Extends P (MemTableQueue.emplaceBack memTable writter) := by
  refine ⟨fun memory => .ok ((), { memory with memTableQueue := memory.memTableQueue ++ [(memTable, writter)] }, []),
    fun db _ => ⟨?_, ?_⟩⟩
  · simp only [MemTableQueue.emplaceBack, DbM.change, grown, regrown, memory, List.append_nil]
  · intro a memory launched same
    cases same
    exact ⟨fun _ _ => rfl, le_rfl, fun _ member => absurd member List.not_mem_nil⟩

theorem launchReloaded_extends (memTable : MemTable) (isLast : Bool) :
    Extends (HasTable first memTable) (launchReloaded memTable isLast) := by
  cases isLast with
  | true =>
    refine ⟨fun memory => .ok ((), memory, []), fun db _ => ⟨?_, ?_⟩⟩
    · exact congrArg (EStateM.Result.ok ()) db.regrown_memory.symm
    · intro a memory launched same
      cases same
      exact .refl _
  | false =>
    refine ⟨fun memory => .ok ((), { memory with
      ssTableFileCounterBase := (memory.ssTableFileCounterBase + 1) % 2 ^ 32 },
      [⟨memTable.table, genFlushInProgressSSTableFileName
        (genSSTableFileName ((memory.ssTableFileCounterBase + 1) % 2 ^ 32)), .running⟩]), fun db now => ⟨rfl, ?_⟩⟩
    intro a memory launched same
    cases same
    refine ⟨fun _ _ => rfl, le_rfl, fun job member => ?_⟩
    rw [List.mem_singleton.mp member]
    exact ⟨now.2, FileName.extension_add ..⟩

/-- What the counter behind the logs becomes. -/
def raised (names : List FileName) (memory : Memory) : Except Exn (Unit × Memory × List FlushJob) :=
  match names.getLast? with
  | none => .ok ((), memory, [])
  | some last => (getCounterFromFileName last).map fun counter =>
    ((), { memory with transactionLogFileCounterBase := (1 + counter) % 2 ^ 32 }, [])

theorem raiseTransactionLogCounter_extends (names : List FileName) :
    Extends (Reloading first) (raiseTransactionLogCounter names) := by
  refine ⟨raised names, fun db _ => ?_⟩
  simp only [raiseTransactionLogCounter, raised, counterAfter, DbM.current, DbM.change, bind, EStateM.bind]
  cases names.getLast? with
  | none =>
    refine ⟨congrArg (EStateM.Result.ok ()) db.regrown_memory.symm, fun a memory launched same => ?_⟩
    cases same
    exact .refl _
  | some last =>
    dsimp only
    cases getCounterFromFileName last with
    | error e => exact ⟨rfl, fun a memory launched same => by cases same⟩
    | ok counter =>
      refine ⟨?_, fun a memory launched same => ?_⟩
      · change _ = EStateM.Result.ok () _
        simp only [regrown, memory, List.append_nil]
        rfl
      · cases same
        exact ⟨fun _ _ => rfl, le_rfl, fun _ member => absurd member List.not_mem_nil⟩

theorem reloadTransactionLogs_outruns (fmt : LogFormat) (reloading : Reloading first db)
    (logs : ∀ n ∈ names, n.extension = some .txl ∧ n ∈ first.names) :
    (reloadTransactionLogsStepwise fmt names).Outruns (Working cfg permit) (Reloading first) db := by
  induction names generalizing db with
  | nil => exact reloading
  | cons name rest ih =>
    obtain ⟨isLog, listed⟩ := logs name (List.mem_cons_self ..)
    obtain ⟨bytes, found⟩ := Directory.mem_names.mp listed
    have outrun {α : Type} {f : DbM α} {s : ProjectDbImpl} (adding : Extends (Reloading first) f) (now : Reloading first s) :
        (Prog.atomic f).Outruns (Working cfg permit) (Reloading first) s :=
      adding.outruns Reloading.stable (fun _ holds => holds) now
    have later {α : Type} {f : DbM α} {s u : ProjectDbImpl} {a : α} (adding : Extends (Reloading first) f)
        (now : Reloading first s) (run : (Prog.atomic f).run s = .ok a u) :
        Reloading first u ∧ s.nextTable ≤ u.nextTable :=
      adding.after (fun _ holds => holds) now (by rwa [Prog.run_atomic] at run)
    refine (outrun (loadTransactionLog_extends fmt isLog) reloading).bind fun table t run => ?_
    have now := (later (loadTransactionLog_extends fmt isLog) reloading run).1
    refine (outrun (create_extends table) now).bind fun memTable u created => ?_
    have known : HasTable first memTable u := by
      refine ⟨(later (create_extends table) now created).1, ?_⟩
      rw [Prog.run_atomic] at created
      cases created
      exact Nat.lt_succ_self _
    refine (outrun (reopen_extends isLog found) known.1).bind fun writter x opened => ?_
    obtain ⟨now, more⟩ := later (reopen_extends isLog found) known.1 opened
    refine (outrun (emplaceBack_extends _ memTable writter) now).bind fun _ y placed => ?_
    obtain ⟨now, further⟩ := later (emplaceBack_extends _ memTable writter) now placed
    have still : HasTable first memTable y := ⟨now, (known.2.trans_le more).trans_le further⟩
    have launches : Extends (HasTable first memTable) (launchReloaded memTable rest.isEmpty) :=
      launchReloaded_extends memTable rest.isEmpty
    refine (launches.outruns (HasTable.stable memTable) (fun _ holds => holds.1) still).bind fun _ z launched => ?_
    rw [Prog.run_atomic] at launched
    have reloading := (launches.after (fun _ holds => holds.1) still launched).1
    exact ih reloading fun n member => logs n (List.mem_cons_of_mem _ member)

end Logs

section Tables

/-- While the database is being opened and has not launched a job. -/
def Unlaunched (first : Files) (db : ProjectDbImpl) : Prop := Reloading first db ∧ db.flushToDiskFutures = []

/-- The same at another time. -/
def Ticked (s t : ProjectDbImpl) : Prop := ∃ now, t = { s with now := now }

/-- Without jobs nothing happens but that time passes. -/
theorem Unlaunched.ticked (now : Unlaunched first t) (step : Working cfg permit t u) : Ticked t u := by
  obtain ⟨reloading, none⟩ := now
  cases step with
  | writing bytes half =>
    obtain ⟨job, member, _⟩ := half.job reloading.idle
    rw [none] at member
    cases member
  | finishing others =>
    obtain ⟨kind, step, _⟩ := others
    cases step with
    | tick _ now => exact ⟨now, rfl⟩
    | clean running =>
      rcases running with ⟨job, member, _⟩ | ⟨job, launched, _⟩
      · rw [none] at member
        cases member
      · rw [reloading.idle] at launched
        cases launched
    | flush split =>
      rw [none] at split
      exact absurd split.symm (by simp)
    | compaction launched =>
      rw [reloading.idle] at launched
      cases launched

theorem Unlaunched.stable : Prog.Stable (Working cfg permit) (Unlaunched first) := by
  intro s t now step
  obtain ⟨time, rfl⟩ := now.ticked step
  exact ⟨Reloading.stable now.1 step, now.2⟩

/-- An action that does not look at the time. -/
abbrev Timeless {α : Type} (f : DbM α) : Prop := EStateM.Simulates Ticked Eq f f

theorem Timeless.outruns {α : Type} {f : DbM α} (timeless : Timeless f) (now : Unlaunched first s)
    (after : Unlaunched first (f.left s)) : (Prog.atomic f).Outruns (Working cfg permit) (Reloading first) s := by
  refine Prog.Outruns.atomic Unlaunched.stable now (fun t u holds step => ?_) now.1 after.1
  refine (timeless t u (holds.ticked step)).weaken ?_
  rintro x _ ⟨time, rfl⟩
  exact .single (.finishing ⟨.tick, .tick x time, by simp⟩)

theorem file_timeless {α : Type} (op : FileM α) : Timeless (DbM.file op) := by
  rintro u _ ⟨now, rfl⟩
  unfold DbM.file
  dsimp only
  cases op u.files with
  | ok a files => exact .ok rfl ⟨now, rfl⟩
  | error e files => exact .error e ⟨now, rfl⟩

theorem change_timeless {f : ProjectDbImpl → ProjectDbImpl}
    (same : ∀ u now, f { u with now := now } = { f u with now := now }) : Timeless (DbM.change f) := by
  rintro u _ ⟨now, rfl⟩
  exact .ok rfl ⟨now, same u now⟩

theorem reloadSSTable_timeless (name : FileName) : Timeless (reloadSSTable cfg name) := by
  refine EStateM.Simulates.bind (file_timeless _) ?_
  rintro ⟨table, index⟩ _ rfl
  cases index with
  | none => exact .pure rfl
  | some index => exact change_timeless fun _ _ => rfl

theorem raiseSSTableCounter_timeless (names : List FileName) : Timeless (raiseSSTableCounter names) := by
  refine EStateM.Simulates.bind (V := Ticked) (fun u u' ticked => .ok ticked ticked) ?_
  rintro u _ ⟨now, rfl⟩
  refine EStateM.Simulates.bind (V := Eq) ?_ ?_
  · unfold counterAfter
    cases names.getLast? with
    | none => exact .pure rfl
    | some last =>
      dsimp only
      cases getCounterFromFileName last with
      | error e => exact fun _ _ ticked => .error e ticked
      | ok counter => exact .pure rfl
  · rintro counter _ rfl
    exact change_timeless fun _ _ => rfl

theorem run_left {α : Type} {f : DbM α} {a : α} (run : (Prog.atomic f).run s = .ok a u) : f.left s = u := by
  rw [Prog.run_atomic] at run
  unfold EStateM.left
  rw [run]

theorem removeAll_outruns (now : Unlaunched first s) (temporary : ∀ n ∈ names, ¬ n.Lasts) :
    (removeAll names).Outruns (Working cfg permit) (Reloading first) s ∧
      ∀ u, (removeAll names).run s = .ok () u → Unlaunched first u := by
  induction names generalizing s with
  | nil =>
    refine ⟨now.1, fun u run => ?_⟩
    cases run
    exact now
  | cons name rest ih =>
    have after : Unlaunched first ((DbM.file (removeFile name)).left s) :=
      ⟨⟨now.1.idle, now.1.jobs, preserves_remove now.1.files (temporary name (List.mem_cons_self ..))⟩, now.2⟩
    have others := ih after fun n member => temporary n (List.mem_cons_of_mem _ member)
    refine ⟨((file_timeless _).outruns now after).bind fun _ t run => ?_, fun u run => ?_⟩
    · exact run_left run ▸ others.1
    · exact others.2 u run

theorem removeFilesWithExt_outruns {ext : FileExt} (now : Unlaunched first s)
    (temporary : ∀ n : FileName, n.extension = some ext → ¬ n.Lasts) :
    (ProjectDbImpl.removeFilesWithExt ext).Outruns (Working cfg permit) (Reloading first) s ∧
      ∀ u, (ProjectDbImpl.removeFilesWithExt ext).run s = .ok () u → Unlaunched first u := by
  have removes : (removeAll (filesWithExt s.files ext)).Outruns (Working cfg permit) (Reloading first) s ∧
      ∀ u, (removeAll (filesWithExt s.files ext)).run s = .ok () u → Unlaunched first u :=
    removeAll_outruns now fun n member => temporary n (mem_filesWithExt.mp member).2
  refine ⟨(Prog.Outruns.read Unlaunched.stable now (fun t u holds step => ?_) now.1).bind fun names t run => ?_, removes.2⟩
  · obtain ⟨time, rfl⟩ := holds.ticked step
    rfl
  · cases run
    exact removes.1

theorem reloadSSTable_left (cfg : Config) (name : FileName) (s : ProjectDbImpl) :
    ∃ queue, (reloadSSTable cfg name).left s = { s with ssTableIndexQueue := queue } := by
  rw [reloadSSTable, EStateM.left_bind]
  unfold DbM.file loadSSTable
  cases loadSSTableFrom cfg.ssTableIndexBlockSizeInBytes (some .new) (getFileStream s.files name) with
  | error e => exact ⟨s.ssTableIndexQueue, rfl⟩
  | ok loaded =>
    obtain ⟨table, index⟩ := loaded
    cases index with
    | none => exact ⟨s.ssTableIndexQueue, rfl⟩
    | some index => exact ⟨_, rfl⟩

theorem reloadSSTables_outruns (now : Unlaunched first s) :
    (reloadSSTablesStepwise cfg names).Outruns (Working cfg permit) (Reloading first) s ∧
      ∀ u, (reloadSSTablesStepwise cfg names).run s = .ok () u → Unlaunched first u := by
  induction names generalizing s with
  | nil =>
    refine ⟨now.1, fun u run => ?_⟩
    cases run
    exact now
  | cons name rest ih =>
    have after : Unlaunched first ((reloadSSTable cfg name).left s) := by
      obtain ⟨queue, same⟩ := reloadSSTable_left cfg name s
      rw [same]
      exact ⟨⟨now.1.idle, now.1.jobs, now.1.files⟩, now.2⟩
    refine ⟨((reloadSSTable_timeless name).outruns now after).bind fun _ t run => ?_, fun u run => ?_⟩
    · exact run_left run ▸ (ih after).1
    · rw [reloadSSTablesStepwise, Prog.run_seq, Prog.run_atomic] at run
      obtain ⟨_, t, first, rest⟩ := EStateM.bind_eq_ok run
      unfold EStateM.left at after
      rw [first] at after
      exact (ih after).2 u rest

theorem raiseSSTableCounter_left (names : List FileName) (s : ProjectDbImpl) :
    ∃ base, (raiseSSTableCounter names).left s = { s with ssTableFileCounterBase := base } := by
  simp only [raiseSSTableCounter, DbM.current, DbM.change, counterAfter, bind, EStateM.bind, EStateM.left]
  cases names.getLast? with
  | none => exact ⟨_, rfl⟩
  | some last =>
    dsimp only
    cases getCounterFromFileName last with
    | error e => exact ⟨s.ssTableFileCounterBase, rfl⟩
    | ok counter => exact ⟨_, rfl⟩

theorem listing_left (ext : FileExt) (s : ProjectDbImpl) : (DbM.file (getFilesWithExtSorted ext)).left s = s := by
  unfold EStateM.left DbM.file
  rcases getFilesWithExtSorted_cases s.files ext with ⟨names, run, _⟩ | ⟨run, _⟩
  · rw [run]
  · rw [run]

end Tables

/-- The jobs that `init` launches in its loop might as well wait until its end:
what it does among their steps, and among the pieces of their files that they
have written, it does alone, and they take these steps after it. -/
theorem initStepwise_outruns (now : Unlaunched first db) :
    (initStepwise cfg fmt).Outruns (Working cfg permit) (Reloading first) db := by
  have removes {ext : FileExt} {s : ProjectDbImpl} (now : Unlaunched first s)
      (temporary : ∀ n : FileName, n.extension = some ext → ¬ n.Lasts) :
      (ProjectDbImpl.removeFilesWithExt ext).Outruns (Working cfg permit) (Reloading first) s ∧
        ∀ u, (ProjectDbImpl.removeFilesWithExt ext).run s = .ok () u → Unlaunched first u :=
    removeFilesWithExt_outruns now temporary
  have tables (names : List FileName) {s : ProjectDbImpl} (now : Unlaunched first s) :
      (reloadSSTablesStepwise cfg names).Outruns (Working cfg permit) (Reloading first) s ∧
        ∀ u, (reloadSSTablesStepwise cfg names).run s = .ok () u → Unlaunched first u := reloadSSTables_outruns now
  obtain ⟨outruns, after⟩ := removes now fun n same lasts => lasts.1 same
  refine outruns.bind fun _ s run => ?_
  obtain ⟨outruns, after⟩ := removes (after s run) fun n same lasts => lasts.2.1 same
  refine outruns.bind fun _ s run => ?_
  obtain ⟨outruns, after⟩ := removes (after s run) fun n same lasts => lasts.2.2 same
  refine outruns.bind fun _ s run => ?_
  have now := after s run
  refine ((file_timeless _).outruns now (by rw [listing_left]; exact now)).bind fun ssTableFiles t run => ?_
  rw [← run_left run, listing_left]
  obtain ⟨outruns, after⟩ := tables ssTableFiles now
  refine outruns.bind fun _ u run => ?_
  have loaded := after u run
  have counted : Unlaunched first ((raiseSSTableCounter ssTableFiles).left u) := by
    obtain ⟨base, same⟩ := raiseSSTableCounter_left ssTableFiles u
    rw [same]
    exact ⟨⟨loaded.1.idle, loaded.1.jobs, loaded.1.files⟩, loaded.2⟩
  refine ((raiseSSTableCounter_timeless _).outruns loaded counted).bind fun _ v run => ?_
  rw [run_left run] at counted
  refine ((file_timeless _).outruns counted (by rw [listing_left]; exact counted)).bind fun logs w run => ?_
  have listed : ∀ n ∈ logs, n.extension = some .txl ∧ n ∈ first.names := by
    rw [Prog.run_atomic] at run
    unfold DbM.file at run
    rcases getFilesWithExtSorted_cases v.files .txl with ⟨names, all, sorted⟩ | ⟨fails, _⟩
    · rw [all] at run
      cases run
      intro n member
      obtain ⟨there, isLog⟩ := mem_filesWithExt.mp (sorted.perm.subset member)
      exact ⟨isLog, (counted.1.files.mem_names (lasts_txl isLog)).mp there⟩
    · rw [fails] at run
      cases run
  rw [← run_left run, listing_left]
  have reloads : (reloadTransactionLogsStepwise fmt logs).Outruns (Working cfg permit) (Reloading first) v :=
    reloadTransactionLogs_outruns fmt counted.1 listed
  refine reloads.bind fun _ x run => ?_
  exact (raiseTransactionLogCounter_extends logs).outruns Reloading.stable (fun _ holds => holds) (reloads.ends run)

end Moving

end ProjectDbImpl
end ProjectDb
