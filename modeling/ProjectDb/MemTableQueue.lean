import ProjectDb.State

namespace ProjectDb

def MemTable.create (table : Table) : DbM MemTable := fun db =>
  .ok ⟨db.nextTable⟩ { db with
    tables := fun address => if address = db.nextTable then table else db.tables address
    nextTable := db.nextTable + 1 }

/-- A writer on a new log file. -/
def TransactionLogWritter.create : DbM TransactionLogWritter := do
  let db ← DbM.current
  let name := genTransactionLogFileName db.transactionLogFileCounterBase
  DbM.assign { db with transactionLogFileCounterBase := (db.transactionLogFileCounterBase + 1) % 2 ^ 32 }
  DbM.file (openForAppend name)
  pure ⟨name⟩

/-- A writer on the named log file. -/
def TransactionLogWritter.reopen (name : FileName) : DbM TransactionLogWritter := do
  DbM.file (openForAppend name)
  pure ⟨name⟩

namespace MemTableQueue

/-- The newest MemTable that has the key answers. -/
def get (db : ProjectDbImpl) (key : StdString) : Option Value :=
  db.memTableQueue.reverse.findSome? fun entry => (db.tables entry.1.table).find? ⟨key⟩

def emplaceBack (memTable : MemTable) (writter : TransactionLogWritter) : DbM Unit :=
  DbM.change fun db => { db with memTableQueue := db.memTableQueue ++ [(memTable, writter)] }

/-- `m_queue.emplace_back()`, an empty MemTable with a new log. -/
def emplaceNew : DbM Unit := do
  let memTable ← MemTable.create .empty
  let writter ← TransactionLogWritter.create
  emplaceBack memTable writter

/-- Make sure that there is a MemTable to write to. -/
def prepare : DbM Unit := do
  let db ← DbM.current
  if db.memTableQueue.isEmpty then emplaceNew

/-- Append the record to the last log, and change the last MemTable. -/
def append (fmt : LogFormat) (op : Operation) : DbM Unit := do
  let db ← DbM.current
  match db.memTableQueue.getLast? with
  | none => throw .undefined
  | some (memTable, writter) =>
    DbM.file (appendFile writter.transactionLogFileName (fmt.record op))
    DbM.change fun db => { db with
      tables := fun address =>
        if address = memTable.table then op.apply (db.tables address) else db.tables address }

/-- `set` and `remove`, up to the call of `tryLaunchFlushToDisk` that ends them. -/
def write (fmt : LogFormat) (op : Operation) : DbProg Unit := do
  .atomic prepare
  .atomic (append fmt op)

def launchFlushToDisk (memTable : MemTable) : DbM FlushJob := fun db =>
  let currSSTableFileCounter := (db.ssTableFileCounterBase + 1) % 2 ^ 32
  .ok ⟨memTable.table, genFlushInProgressSSTableFileName (genSSTableFileName currSSTableFileCounter), .running⟩
    { db with ssTableFileCounterBase := currSSTableFileCounter }

/-- Flush the last MemTable when it needs it, with a new one behind it. -/
def tryLaunchFlushToDisk (cfg : Config) : DbM (Option FlushJob) := do
  let db ← DbM.current
  match db.memTableQueue.getLast? with
  | none => throw .undefined
  | some (memTable, _) =>
    if (db.tables memTable.table).needsFlushToDisk cfg.memTableApproximateMaxSizeInBytes then
      emplaceNew
      let job ← launchFlushToDisk memTable
      pure (some job)
    else pure none

def loadTransactionLog (fmt : LogFormat) (transactionLogFileName : FileName) : DbM Table := fun db =>
  match fmt.load transactionLogFileName (getFileStream db.files transactionLogFileName) with
  | .ok table => .ok table db
  | .error e => .error e db

/-- A MemTable from a log; it is flushed at once unless its log is the last one. -/
def pushFromTransactionLog (fmt : LogFormat) (transactionLogFileName : FileName) (isLastTransactionLog : Bool) :
    DbM (Option FlushJob) := do
  let table ← loadTransactionLog fmt transactionLogFileName
  let memTable ← MemTable.create table
  let writter ← TransactionLogWritter.reopen transactionLogFileName
  emplaceBack memTable writter
  if !isLastTransactionLog then
    let job ← launchFlushToDisk memTable
    pure (some job)
  else pure none

/-- Remove the oldest MemTable and mark its log as deprecated. -/
def pop : DbM Unit := do
  let db ← DbM.current
  match db.memTableQueue with
  | [] => throw .undefined
  | (_, writter) :: rest =>
    DbM.assign { db with memTableQueue := rest }
    DbM.file (markFileAsDeprecated writter.transactionLogFileName)

end MemTableQueue
end ProjectDb
