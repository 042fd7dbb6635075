import ProjectDb.State
import ProjectDb.SSTableOps

namespace ProjectDb
namespace SSTableIndexQueue

/-- The loop of `get` over the queue from its newest element down; every index
that is asked may open its file. -/
def getIn (cfg : Config) (files : Files) (key : Key) :
    List SSTableIndex → EStateM.Result Exn (List SSTableIndex) (Option Value)
  | [] => .ok none []
  | index :: newer =>
    match getIn cfg files key newer with
    | .ok (some value) newer => .ok (some value) (index :: newer)
    | .error e newer => .error e (index :: newer)
    | .ok none newer =>
      match index.seek cfg.keepSSTableFileOpen files key with
      | .ok answer index => .ok answer (index :: newer)
      | .error e index => .error e (index :: newer)

def get (cfg : Config) (key : StdString) : DbM (Option Value) := fun db =>
  let withQueue queue := { db with ssTableIndexQueue := { db.ssTableIndexQueue with queue := queue } }
  match getIn cfg db.files ⟨key⟩ db.ssTableIndexQueue.queue with
  | .ok answer queue => .ok answer (withQueue queue)
  | .error e queue => .error e (withQueue queue)

def insert (ssTableIndex : SSTableIndex) : DbM Unit :=
  DbM.change fun db => { db with
    ssTableIndexQueue := { db.ssTableIndexQueue with queue := db.ssTableIndexQueue.queue ++ [ssTableIndex] } }

/-- Mark the files of the compacted tables as deprecated, one after the other. -/
def markCompacted : List SSTableIndex → DbProg Unit
  | [] => pure ()
  | index :: rest => do
    .atomic (DbM.file (markFileAsDeprecated index.ssTableFileName))
    markCompacted rest

/-- Rename the merged files to normal SSTable files, one after the other. -/
def renameMerged : List SSTableIndex → DbProg (List SSTableIndex)
  | [] => pure []
  | index :: rest => do
    let name ← .atomic (DbM.file (removeExtAndRename index.ssTableFileName))
    let renamed ← renameMerged rest
    pure ({ index with ssTableFileName := name } :: renamed)

/-- `m_queue.erase` of the compacted range. -/
def eraseCompacted (start count : Nat) : DbM Unit :=
  DbM.change fun db => { db with
    ssTableIndexQueue := { db.ssTableIndexQueue with
      queue := db.ssTableIndexQueue.queue.take start ++ db.ssTableIndexQueue.queue.drop (start + count) } }

/-- `m_queue.insert` of the merged tables; compaction starts from the last of them. -/
def insertMerged (start : Nat) (merged : List SSTableIndex) : DbM Unit :=
  DbM.change fun db => { db with
    ssTableIndexQueue :=
      ⟨db.ssTableIndexQueue.queue.take start ++ merged ++ db.ssTableIndexQueue.queue.drop start,
        start + merged.length - 1⟩ }

/-- Replace the compacted tables by the merged ones, on disk and in the queue. -/
def update (cfg : Config) (ssTableIndexAfterCompaction : List SSTableIndex) : DbProg Unit := do
  let self ← .read (·.ssTableIndexQueue)
  let start := self.compactionStartIndex
  let count := cfg.numSSTableToCompact.toNat
  if count = 0 then .throw (.dbException "Invalid NUM_SSTABLE_TO_COMPACT for update!")
  else if (self.queue.length : Int) - (start + 1) < count then
    .throw (.dbException "SSTableIndex queue size does not look right!")
  else if ssTableIndexAfterCompaction.isEmpty then
    .throw (.dbException ("Got empty ssTableIndexAfterCompaction. This should not happen " ++
      "when NUM_SSTABLE_TO_COMPACT > 0!"))
  else
    markCompacted ((self.queue.drop start).take (1 + count))
    .atomic (eraseCompacted start (1 + count))
    let renamed ← renameMerged ssTableIndexAfterCompaction
    .atomic (insertMerged start renamed)

/-- Start a compaction when there are enough new SSTables. The count of these is
a `size_t` difference narrowed to `int`, and compared with the setting cast to `int`. -/
def tryLaunchCompaction (cfg : Config) : DbM (Option CompactionJob) := do
  let db ← DbM.current
  let self := db.ssTableIndexQueue
  if cfg.numSSTableToCompact = 0 then pure none
  else
    let newlyAddedSSTablesCnt := ((self.queue.length : Int) - self.compactionStartIndex - 1).bmod (2 ^ 32)
    if newlyAddedSSTablesCnt < (cfg.numSSTableToCompact.toNat : Int).bmod (2 ^ 32) then pure none
    else pure (some ⟨self.compactionStartIndex,
      self.compactionStartIndex + cfg.numSSTableToCompact.toNat + 1, .running⟩)

/-- What the job of `tryLaunchCompaction` does: iterators outside of the queue
must not be used. -/
def compact (cfg : Config) (job : CompactionJob) (db : ProjectDbImpl) : EStateM.Result Exn Files (List SSTableIndex) :=
  if job.endIt ≤ db.ssTableIndexQueue.queue.length then
    mergeSSTables cfg ((db.ssTableIndexQueue.queue.drop job.beginIt).take (job.endIt - job.beginIt)) db.files
  else .error .undefined db.files

end SSTableIndexQueue
end ProjectDb
