import ProjectDb.MemTableQueue
import ProjectDb.SSTableIndexQueue

namespace ProjectDb
namespace ProjectDbImpl

/-- What polling a future with `wait_for(0)`, and taking it when ready, comes to. -/
inductive Polled (α : Type)
  | absent
  | pending
  | done (result : α)

section Futures
variable (cfg : Config)

/-- Poll the compaction job. -/
def takeCompaction : DbM (Polled (List SSTableIndex)) := do
  let db ← DbM.current
  match db.ssTableCompactionFuture with
  | none => pure .absent
  | some job =>
    match job.future with
    | .running => pure .pending
    | .consumed => throw .futureError
    | .ready result =>
      DbM.assign { db with ssTableCompactionFuture := some { job with future := .consumed } }
      match result with
      | .error e => throw e
      | .ok ssTableIndexAfterCompaction => pure (.done ssTableIndexAfterCompaction)

/-- Whether a compaction is running; the result of a finished one is installed. -/
def checkSSTableCompactionFuture : DbProg Bool := do
  match ← .atomic takeCompaction with
  | .absent => pure false
  | .pending => pure true
  | .done ssTableIndexAfterCompaction =>
    SSTableIndexQueue.update cfg ssTableIndexAfterCompaction
    .atomic (DbM.change fun db => { db with ssTableCompactionFuture := none })
    pure false

/-- Poll the oldest flush job, and give its file the name of an SSTable. -/
def takeFlush : DbM (Polled SSTableIndex) := do
  let db ← DbM.current
  match db.flushToDiskFutures with
  | [] => pure .absent
  | job :: rest =>
    match job.future with
    | .running => pure .pending
    | .consumed => throw .futureError
    | .ready result =>
      DbM.assign { db with flushToDiskFutures := { job with future := .consumed } :: rest }
      match result with
      | .error e => throw e
      | .ok ssTableIndex =>
        let name ← DbM.file (removeExtAndRename ssTableIndex.ssTableFileName)
        pure (.done { ssTableIndex with ssTableFileName := name })

/-- Hand the flushed table over from the MemTables to the SSTables. -/
def handOver (ssTableIndex : SSTableIndex) : DbM Unit := do
  SSTableIndexQueue.insert ssTableIndex
  MemTableQueue.pop
  DbM.change fun db => { db with flushToDiskFutures := db.flushToDiskFutures.tail }

/-- One pass of the loop of `checkFlushToDiskFutures`; it ends the loop when
the oldest future is not ready. -/
def pass : DbProg Bool := do
  match ← .atomic takeFlush with
  | .absent => pure false
  | .pending => pure false
  | .done ssTableIndex =>
    .atomic (handOver ssTableIndex)
    pure true

/-- The loop of `checkFlushToDiskFutures`, which erases a future in every pass. -/
def drain : (futures : Nat) → DbProg Unit
  | 0 => pure ()
  | futures + 1 => do
    let handedOver ← pass
    if handedOver then drain futures else pure ()

def launchCompaction : DbM Unit := do
  match ← SSTableIndexQueue.tryLaunchCompaction cfg with
  | none => pure ()
  | some job => DbM.change fun db => { db with ssTableCompactionFuture := some job }

def checkFlushToDiskFutures : DbProg Unit := do
  let futures ← .read (·.flushToDiskFutures.length)
  drain futures
  .atomic (launchCompaction cfg)

def checkFutures : DbProg Unit := do
  let hasCompactionRunning ← checkSSTableCompactionFuture cfg
  if hasCompactionRunning then pure () else checkFlushToDiskFutures cfg

end Futures

section Polling
variable {db : ProjectDbImpl}

theorem takeCompaction_absent (idle : db.ssTableCompactionFuture = none) : takeCompaction db = .ok .absent db := by
  simp only [takeCompaction, DbM.current, bind, EStateM.bind, idle]
  rfl

/-- The state after the result of the compaction has been taken. -/
def tookCompaction (db : ProjectDbImpl) (job : CompactionJob) : ProjectDbImpl :=
  { db with ssTableCompactionFuture := some { job with future := .consumed } }

section Compaction
variable {job : CompactionJob} (launched : db.ssTableCompactionFuture = some job)
include launched

theorem takeCompaction_running (running : job.future = .running) : takeCompaction db = .ok .pending db := by
  simp only [takeCompaction, DbM.current, bind, EStateM.bind, launched, running]
  rfl

theorem takeCompaction_consumed (consumed : job.future = .consumed) : takeCompaction db = .error .futureError db := by
  simp only [takeCompaction, DbM.current, bind, EStateM.bind, launched, consumed]
  rfl

theorem takeCompaction_done {merged : List SSTableIndex} (ready : job.future = .ready (.ok merged)) :
    takeCompaction db = .ok (.done merged) (db.tookCompaction job) := by
  simp only [takeCompaction, DbM.current, DbM.assign, bind, EStateM.bind, launched, ready]
  rfl

theorem takeCompaction_failed {e : Exn} (ready : job.future = .ready (.error e)) :
    takeCompaction db = .error e (db.tookCompaction job) := by
  simp only [takeCompaction, DbM.current, DbM.assign, bind, EStateM.bind, launched, ready]
  rfl

end Compaction

theorem takeFlush_absent (none : db.flushToDiskFutures = []) : takeFlush db = .ok .absent db := by
  simp only [takeFlush, DbM.current, bind, EStateM.bind, none]
  rfl

section Flush
variable {job : FlushJob} {rest : List FlushJob} (front : db.flushToDiskFutures = job :: rest)
include front

theorem takeFlush_running (running : job.future = .running) : takeFlush db = .ok .pending db := by
  simp only [takeFlush, DbM.current, bind, EStateM.bind, front, running]
  rfl

theorem takeFlush_consumed (consumed : job.future = .consumed) : takeFlush db = .error .futureError db := by
  simp only [takeFlush, DbM.current, bind, EStateM.bind, front, consumed]
  rfl

theorem takeFlush_failed {e : Exn} (ready : job.future = .ready (.error e)) :
    takeFlush db = .error e { db with flushToDiskFutures := { job with future := .consumed } :: rest } := by
  simp only [takeFlush, DbM.current, DbM.assign, bind, EStateM.bind, front, ready]
  rfl

/-- The result of the job is taken before its file is renamed. -/
theorem takeFlush_done {index : SSTableIndex} (ready : job.future = .ready (.ok index)) :
    takeFlush db = match removeExtAndRename index.ssTableFileName db.files with
      | .ok name files => .ok (.done { index with ssTableFileName := name })
          { db with files := files, flushToDiskFutures := { job with future := .consumed } :: rest }
      | .error e files => .error e
          { db with files := files, flushToDiskFutures := { job with future := .consumed } :: rest } := by
  simp only [takeFlush, DbM.current, DbM.assign, DbM.file, bind, EStateM.bind, front, ready]
  cases removeExtAndRename index.ssTableFileName db.files <;> rfl

end Flush
end Polling

section Calls
variable (cfg : Config) (fmt : LogFormat)

/-- `get` after its check of the futures: MemTables first, then SSTables. -/
def find (key : StdString) : DbM (Option StdString) := do
  let db ← DbM.current
  match MemTableQueue.get db key with
  | some value => pure value.underlyingValue
  | none =>
    match ← SSTableIndexQueue.get cfg key with
    | some value => pure value.underlyingValue
    | none => pure none

def get (key : StdString) : DbProg (Option StdString) := do
  checkFutures cfg
  .atomic (find cfg key)

/-- Store the future of the flush job that the write has started. -/
def launchFlush : DbM Unit := do
  match ← MemTableQueue.tryLaunchFlushToDisk cfg with
  | none => pure ()
  | some job => DbM.change fun db => { db with flushToDiskFutures := db.flushToDiskFutures ++ [job] }

/-- The common body of `set` and `remove`. -/
def write (op : Operation) : DbProg Unit := do
  checkFutures cfg
  MemTableQueue.write fmt op
  .atomic (launchFlush cfg)

def set (key value : StdString) : DbProg Unit := write cfg fmt (.set key value)

def remove (key : StdString) : DbProg Unit := write cfg fmt (.remove key)

end Calls

/-- A call of the interface. -/
inductive Call
  | get (key : StdString)
  | set (key value : StdString)
  | remove (key : StdString)
  deriving DecidableEq

def Call.prog (cfg : Config) (fmt : LogFormat) : Call → DbProg (Option StdString)
  | get key => ProjectDbImpl.get cfg key
  | set key value => do
    ProjectDbImpl.set cfg fmt key value
    pure none
  | remove key => do
    ProjectDbImpl.remove cfg fmt key
    pure none

section Recovery
variable (cfg : Config) (fmt : LogFormat)

/-- The loop of `removeFilesWithExt`, file by file. -/
def removeAll : List FileName → DbProg Unit
  | [] => pure ()
  | name :: rest => do
    .atomic (DbM.file (removeFile name))
    removeAll rest

def removeFilesWithExt (ext : FileExt) : DbProg Unit := do
  let names ← .read fun db => filesWithExt db.files ext
  removeAll names

def reloadSSTable (ssTableFileName : FileName) : DbM Unit := do
  match ← DbM.file (loadSSTable cfg.ssTableIndexBlockSizeInBytes ssTableFileName (some .new)) with
  | (_, some ssTableIndex) => SSTableIndexQueue.insert ssTableIndex
  | (_, none) => pure ()

def reloadSSTables : List FileName → DbM Unit
  | [] => pure ()
  | name :: rest => do
    reloadSSTable cfg name
    reloadSSTables rest

def reloadTransactionLogs : List FileName → DbM Unit
  | [] => pure ()
  | name :: rest => do
    match ← MemTableQueue.pushFromTransactionLog fmt name rest.isEmpty with
    | none => pure ()
    | some job => DbM.change fun db => { db with flushToDiskFutures := db.flushToDiskFutures ++ [job] }
    reloadTransactionLogs rest

/-- One more than the counter of the last of the files, if there is one. -/
def counterAfter (names : List FileName) (base : Nat) : DbM Nat :=
  match names.getLast? with
  | none => pure base
  | some last =>
    match getCounterFromFileName last with
    | .ok counter => pure ((1 + counter) % 2 ^ 32)
    | .error e => throw e

/-- `init` after temporary files have been removed. -/
def reload : DbM Unit := do
  let ssTableFiles ← DbM.file (getFilesWithExtSorted .sst)
  reloadSSTables cfg ssTableFiles
  let db ← DbM.current
  let counter ← counterAfter ssTableFiles db.ssTableFileCounterBase
  DbM.change fun db => { db with ssTableFileCounterBase := counter }
  let transactionLogFiles ← DbM.file (getFilesWithExtSorted .txl)
  reloadTransactionLogs fmt transactionLogFiles
  let db ← DbM.current
  let counter ← counterAfter transactionLogFiles db.transactionLogFileCounterBase
  DbM.change fun db => { db with transactionLogFileCounterBase := counter }

def init : DbProg Unit := do
  removeFilesWithExt .deprecated
  removeFilesWithExt .ip
  removeFilesWithExt .merged
  .atomic (reload cfg fmt)

end Recovery

section Close
variable (cfg : Config)

/-- The SSTable that a flush job writes. -/
def flushedTable (db : ProjectDbImpl) (job : FlushJob) : SSTable := ⟨⟨db.now⟩, db.tables job.table⟩

/-- What waiting for the oldest flush job comes to: when it is still running,
it finishes now. -/
def waitForFlush : DbM Unit := do
  let db ← DbM.current
  match db.flushToDiskFutures with
  | [] => throw .undefined
  | job :: rest =>
    match job.future with
    | .running =>
      match writeSSTable cfg.ssTableIndexBlockSizeInBytes (db.flushedTable job) job.fileName db.files with
      | .ok index files =>
        DbM.assign { db with files := files, flushToDiskFutures := { job with future := .ready (.ok index) } :: rest }
      | .error e files =>
        DbM.assign { db with files := files, flushToDiskFutures := { job with future := .ready (.error e) } :: rest }
    | _ => pure ()

/-- Remove the MemTable that has been flushed, and leave its future behind. -/
def discard : DbM Unit := do
  MemTableQueue.pop
  DbM.change fun db => { db with flushToDiskFutures := db.flushToDiskFutures.tail }

/-- The loop of the destructor over the flush jobs. The SSTables that they have
written do not enter the queue any more. -/
def finishFlushes : (futures : Nat) → DbProg Unit
  | 0 => pure ()
  | futures + 1 => do
    .atomic (waitForFlush cfg)
    match ← .atomic takeFlush with
    | .done _ =>
      .atomic discard
      finishFlushes futures
    | _ => .throw .undefined

/-- What waiting for the compaction comes to: when it is still running, it
finishes now. -/
def waitForCompaction : DbM Unit := do
  let db ← DbM.current
  match db.ssTableCompactionFuture with
  | none => pure ()
  | some job =>
    match job.future with
    | .running =>
      match SSTableIndexQueue.compact cfg job db with
      | .ok merged files =>
        DbM.assign { db with files := files, ssTableCompactionFuture := some { job with future := .ready (.ok merged) } }
      | .error e files =>
        DbM.assign { db with files := files, ssTableCompactionFuture := some { job with future := .ready (.error e) } }
    | _ => pure ()

/-- The destructor. -/
def destroy : DbProg Unit := do
  let futures ← .read (·.flushToDiskFutures.length)
  finishFlushes cfg futures
  .atomic (waitForCompaction cfg)
  let _ ← checkSSTableCompactionFuture cfg
  removeFilesWithExt .deprecated

end Close

section Jobs
variable (cfg : Config)

/-- Some job is running, and may be removing deprecated files. -/
def JobRunning (db : ProjectDbImpl) : Prop :=
  (∃ job ∈ db.flushToDiskFutures, job.future = .running) ∨
    ∃ job, db.ssTableCompactionFuture = some job ∧ job.future = .running

inductive JobKind
  | tick | clean | flush | compaction
  deriving DecidableEq

/-- The steps of the background jobs, whose file operations succeed: time
passes, a job removes a deprecated file, a flush job writes its file, the
compaction job merges its range. -/
inductive JobStep : JobKind → ProjectDbImpl → ProjectDbImpl → Prop
  | tick (db : ProjectDbImpl) (now : UInt64) : JobStep .tick db { db with now := now }
  | clean {db : ProjectDbImpl} {name : FileName} (running : db.JobRunning)
      (deprecated : name.extension = some .deprecated) :
      JobStep .clean db { db with files := db.files.remove name }
  | flush {db : ProjectDbImpl} {before after : List FlushJob} {job : FlushJob} {index : SSTableIndex} {files : Files}
      (split : db.flushToDiskFutures = before ++ job :: after) (running : job.future = .running)
      (write : writeSSTable cfg.ssTableIndexBlockSizeInBytes (db.flushedTable job) job.fileName db.files =
        .ok index files) :
      JobStep .flush db { db with
        files := files
        flushToDiskFutures := before ++ { job with future := .ready (.ok index) } :: after }
  | compaction {db : ProjectDbImpl} {job : CompactionJob} {merged : List SSTableIndex} {files : Files}
      (launched : db.ssTableCompactionFuture = some job) (running : job.future = .running)
      (merge : SSTableIndexQueue.compact cfg job db = .ok merged files) :
      JobStep .compaction db { db with
        files := files
        ssTableCompactionFuture := some { job with future := .ready (.ok merged) } }

end Jobs

end ProjectDbImpl
end ProjectDb
