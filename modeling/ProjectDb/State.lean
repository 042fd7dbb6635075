import ProjectDb.SSTable
import ProjectDb.TransactionLog
import ProjectDb.Config
import ProjectDb.Foundation.Prog

namespace ProjectDb

/-- A `std::future` of a job started with `std::async`. Its result, a value or
an exception, can be taken once. -/
inductive Future (α : Type)
  | running
  | ready (result : Except Exn α)
  | consumed

/-- A `MemTable` owns its table together with the jobs that flush it; `table`
is the address of the shared table. -/
structure MemTable where
  table : Nat
  deriving DecidableEq, Repr

structure TransactionLogWritter where
  transactionLogFileName : FileName
  deriving DecidableEq, Repr

/-- A job started by `launchFlushToDisk`: the captured pointer to the table, the
name it writes to, and its future. -/
structure FlushJob where
  table : Nat
  fileName : FileName
  future : Future SSTableIndex

/-- A job started by `tryLaunchCompaction`, with its iterators into the queue
as positions. -/
structure CompactionJob where
  beginIt : Nat
  endIt : Nat
  future : Future (List SSTableIndex)

structure SSTableIndexQueue where
  queue : List SSTableIndex
  compactionStartIndex : Nat

/-- The database, with the directory, the clock, the heap of shared tables and
the counters that it works on. All queues are ordered from old to new. -/
structure ProjectDbImpl where
  files : Files
  now : UInt64
  tables : Nat → Table
  nextTable : Nat
  ssTableFileCounterBase : Nat
  transactionLogFileCounterBase : Nat
  memTableQueue : List (MemTable × TransactionLogWritter)
  ssTableIndexQueue : SSTableIndexQueue
  flushToDiskFutures : List FlushJob
  ssTableCompactionFuture : Option CompactionJob

/-- What the members are before `init`; the counters are global and keep what
an earlier database of the process left in them. -/
def ProjectDbImpl.fresh (files : Files) (now : UInt64)
    (ssTableFileCounterBase transactionLogFileCounterBase : Nat) : ProjectDbImpl where
  files := files
  now := now
  tables _ := .empty
  nextTable := 0
  ssTableFileCounterBase := ssTableFileCounterBase
  transactionLogFileCounterBase := transactionLogFileCounterBase
  memTableQueue := []
  ssTableIndexQueue := ⟨[], 0⟩
  flushToDiskFutures := []
  ssTableCompactionFuture := none

/-- Sequential code of the thread that calls the database. -/
abbrev DbM := EStateM Exn ProjectDbImpl

/-- Code of the calling thread as atomic actions, each with at most one
operation on the directory: jobs run, and the process may stop, in between. -/
abbrev DbProg := Prog ProjectDbImpl Exn

def DbM.current : DbM ProjectDbImpl := fun db => .ok db db

def DbM.assign (db : ProjectDbImpl) : DbM Unit := fun _ => .ok () db

def DbM.change (f : ProjectDbImpl → ProjectDbImpl) : DbM Unit := fun db => .ok () (f db)

def DbM.file {α : Type} (op : FileM α) : DbM α := fun db =>
  match op db.files with
  | .ok a files => .ok a { db with files := files }
  | .error e files => .error e { db with files := files }

end ProjectDb
