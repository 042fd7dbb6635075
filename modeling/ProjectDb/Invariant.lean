import ProjectDb.Database
import ProjectDb.Compaction

namespace ProjectDb

/-- What the files and the memory of an open database stand for: the elements
of the SSTable queue, tables renamed to SSTables that are not in the queue,
the logs with their contents, the contents of the MemTables, tables that are no
longer written, and the number of futures whose results have been taken. -/
structure View where
  queue : List Indexed
  handed : List Indexed
  logs : List (Nat × List Byte)
  memory : List Table
  retired : List (Nat × Table)
  taken : Nat

namespace View

/-- The SSTables of the directory. -/
def shelf (v : View) : List Indexed := v.queue ++ v.handed

/-- The tables that answer for a key, oldest first. -/
def layers (v : View) : List Table := tablesOf v.queue ++ v.memory

end View

def counterOf (x : Indexed) : Nat := x.1.ssTableFileName.counter

/-- Strictly increasing numbers below a bound are no more than the bound. -/
theorem length_le_of_increasing {counters : List Nat} (order : counters.Pairwise (· < ·)) {bound : Nat}
    (small : ∀ c ∈ counters, c < bound) : counters.length ≤ bound := by
  have nodup : counters.Nodup := order.imp fun less => less.ne
  have subset : counters ⊆ List.range bound := fun c member => List.mem_range.mpr (small c member)
  simpa using (List.subperm_of_subset nodup subset).length_le

namespace ProjectDbImpl

/-- A flush job is running, or its file holds its table. -/
def Sound (db : ProjectDbImpl) (job : FlushJob) : Prop :=
  job.future = .running ∨ ∃ index s, job.future = .ready (.ok index) ∧ index.ssTableFileName = job.fileName ∧
    s.table = db.tables job.table ∧ index.Holds db.files s

/-- The flush jobs whose results have not been taken. -/
def pendingJobs (v : View) (db : ProjectDbImpl) : List FlushJob := db.flushToDiskFutures.drop v.taken

/-- The MemTables and the jobs that flush them. All futures belong to the
MemTables before the last one, in their order. -/
structure Flushing (v : View) (db : ProjectDbImpl) : Prop where
  early : v.taken ≤ db.flushToDiskFutures.length
  taken : ∀ job ∈ db.flushToDiskFutures.take v.taken, job.future = .consumed
  aligned : db.flushToDiskFutures.map (·.table) = db.memTableQueue.dropLast.map (·.1.table)
  distinct : (db.memTableQueue.map (·.1.table)).Nodup
  allocated : ∀ e ∈ db.memTableQueue, e.1.table < db.nextTable
  memory : db.memTableQueue.map (fun e => db.tables e.1.table) = v.memory
  retired : ∀ r ∈ v.retired, r.1 < db.nextTable ∧ db.tables r.1 = r.2 ∧
    ∀ e, db.memTableQueue.getLast? = some e → e.1.table ≠ r.1
  sound : ∀ job ∈ db.pendingJobs v, db.Sound job
  named : ∀ job ∈ db.pendingJobs v,
    job.fileName = genFlushInProgressSSTableFileName (genSSTableFileName job.fileName.counter)
  order : (v.shelf.map counterOf ++ (db.pendingJobs v).map (·.fileName.counter)).Pairwise (· < ·)
  base : ∀ c ∈ v.shelf.map counterOf ++ (db.pendingJobs v).map (·.fileName.counter), c ≤ db.ssTableFileCounterBase

/-- The log files are those of the MemTables, in their order. -/
structure Logging (v : View) (db : ProjectDbImpl) : Prop where
  names : db.memTableQueue.map (·.2.transactionLogFileName) = v.logs.map fun l => genTransactionLogFileName l.1
  files : ∀ n : FileName, n.extension = some .txl → ∀ bytes,
    db.files.read n = some bytes ↔ ∃ l ∈ v.logs, n = genTransactionLogFileName l.1 ∧ bytes = l.2
  order : (v.logs.map Prod.fst).Pairwise (· < ·)
  base : ∀ l ∈ v.logs, l.1 < db.transactionLogFileCounterBase

/-- The SSTable files are those of the shelf, and the queue is on the shelf. -/
structure Shelved (v : View) (db : ProjectDbImpl) : Prop where
  queue : v.queue.map Prod.fst = db.ssTableIndexQueue.queue
  holds : ∀ x ∈ v.shelf, x.1.Holds db.files x.2
  named : ∀ x ∈ v.shelf, x.1.ssTableFileName = genSSTableFileName (counterOf x)
  listed : ∀ n : FileName, n.extension = some .sst → ∀ bytes, db.files.read n = some bytes →
    n ∈ v.shelf.map fun x => x.1.ssTableFileName
  start : db.ssTableIndexQueue.compactionStartIndex = 0 ∨
    db.ssTableIndexQueue.compactionStartIndex < v.queue.length

/-- The window of a compaction that has finished is ready to be replaced by the
merged files of its groups. -/
structure Compacted (cfg : Config) (v : View) (db : ProjectDbImpl) (job : CompactionJob) (I : Install) : Prop where
  before : I.before = v.queue
  start : I.below.length = job.beginIt
  wide : I.window.length = cfg.numSSTableToCompact.toNat + 1
  groups : I.merged.map Prod.fst = groupsOfRange cfg I.window
  nonempty : I.merged ≠ []
  merged : ∀ m ∈ I.merged, Merged db.files m.1 m.2

/-- A compaction job works on the window of the queue from its start index on,
which is inside the queue unless the cast of the setting has failed. `permit` is
what is known of the tables and the start when it finishes. -/
def Compacting (cfg : Config) (permit : List SSTable → Nat → Prop) (v : View) (db : ProjectDbImpl) : Prop :=
  ∀ job, db.ssTableCompactionFuture = some job →
    job.beginIt = db.ssTableIndexQueue.compactionStartIndex ∧
    job.endIt = job.beginIt + cfg.numSSTableToCompact.toNat + 1 ∧ cfg.numSSTableToCompact.toNat ≠ 0 ∧
    (cfg.numSSTableToCompact.toNat < 2 ^ 31 → job.endIt ≤ v.queue.length) ∧
    (job.future = .running ∨ ∃ I : Install, job.future = .ready (.ok (I.merged.map Prod.snd)) ∧
      Compacted cfg v db job I ∧ permit (v.queue.map Prod.snd) job.beginIt)

/-- The invariant of an open database between two actions of its thread that
do not install a compaction. -/
structure Inv (cfg : Config) (permit : List SSTable → Nat → Prop) (v : View) (db : ProjectDbImpl) : Prop where
  flushing : Flushing v db
  logging : Logging v db
  shelved : Shelved v db
  compacting : Compacting cfg permit v db

variable {cfg : Config} {permit : List SSTable → Nat → Prop} {v : View} {db other : ProjectDbImpl}

/-- The fields that the invariant of the flushes is about, but for the files. -/
structure SameMemory (db other : ProjectDbImpl) : Prop where
  memTableQueue : other.memTableQueue = db.memTableQueue
  tables : other.tables = db.tables
  nextTable : other.nextTable = db.nextTable
  ssTableFileCounterBase : other.ssTableFileCounterBase = db.ssTableFileCounterBase
  transactionLogFileCounterBase : other.transactionLogFileCounterBase = db.transactionLogFileCounterBase
  flushToDiskFutures : other.flushToDiskFutures = db.flushToDiskFutures

theorem Sound.frame {job : FlushJob} (sound : db.Sound job) (tables : other.tables = db.tables)
    (file : other.files.read job.fileName = db.files.read job.fileName) : other.Sound job := by
  rcases sound with running | ⟨index, s, ready, named, table, holds⟩
  · exact Or.inl running
  · exact Or.inr ⟨index, s, ready, named, by rw [tables, table], holds.frame (by rw [named, file])⟩

/-- Steps that leave the memory and the files of the flush jobs alone. -/
theorem Flushing.frame (flushing : Flushing v db) (same : SameMemory db other)
    (ip : ∀ n : FileName, n.extension = some .ip → other.files.read n = db.files.read n) : Flushing v other := by
  obtain ⟨memTableQueue, tables, nextTable, base, _, futures⟩ := same
  have pending : other.pendingJobs v = db.pendingJobs v := by rw [pendingJobs, futures, pendingJobs]
  refine ⟨futures ▸ flushing.early, futures ▸ flushing.taken, ?_, memTableQueue ▸ flushing.distinct, ?_, ?_, ?_, ?_, ?_, ?_, ?_⟩
  · rw [futures, memTableQueue]
    exact flushing.aligned
  · rw [memTableQueue, nextTable]
    exact flushing.allocated
  · rw [memTableQueue, tables]
    exact flushing.memory
  · rw [memTableQueue, tables, nextTable]
    exact flushing.retired
  · rw [pending]
    intro job member
    refine (flushing.sound job member).frame tables (ip _ ?_)
    rw [flushing.named job member, genFlushInProgressSSTableFileName, FileName.extension_add]
  · rw [pending]
    exact flushing.named
  · rw [pending]
    exact flushing.order
  · rw [pending, base]
    exact flushing.base

/-- The flushes are as well off when SSTables leave the shelf. -/
theorem Flushing.shelf (flushing : Flushing v db) {queue : List Indexed}
    (fewer : ((queue ++ v.handed).map counterOf).Sublist (v.shelf.map counterOf)) :
    Flushing { v with queue := queue } db := by
  have sublist := fewer.append_right ((db.pendingJobs v).map (·.fileName.counter))
  exact ⟨flushing.early, flushing.taken, flushing.aligned, flushing.distinct, flushing.allocated, flushing.memory,
    flushing.retired, flushing.sound, flushing.named, flushing.order.sublist sublist,
    fun c member => flushing.base c (sublist.subset member)⟩

theorem Logging.frame (logging : Logging v db) (same : SameMemory db other)
    (txl : ∀ n : FileName, n.extension = some .txl → other.files.read n = db.files.read n) : Logging v other where
  names := by rw [same.memTableQueue]; exact logging.names
  files n isLog bytes := by rw [txl n isLog]; exact logging.files n isLog bytes
  order := logging.order
  base := by rw [same.transactionLogFileCounterBase]; exact logging.base

theorem Shelved.sst (shelved : Shelved v db) {x : Indexed} (member : x ∈ v.shelf) :
    x.1.ssTableFileName.extension = some .sst := by
  rw [shelved.named x member]
  rfl

theorem Shelved.frame (shelved : Shelved v db) (queue : other.ssTableIndexQueue = db.ssTableIndexQueue)
    (sst : ∀ n : FileName, n.extension = some .sst → other.files.read n = db.files.read n) : Shelved v other where
  queue := by rw [queue]; exact shelved.queue
  holds x member := (shelved.holds x member).frame (sst _ (shelved.sst member))
  named := shelved.named
  listed n isSst bytes found := shelved.listed n isSst bytes (sst n isSst ▸ found)
  start := by rw [queue]; exact shelved.start

theorem Compacted.frame {job : CompactionJob} {I : Install} (compacted : Compacted cfg v db job I)
    (same : ∀ n : FileName, n.extension = some .merged → other.files.read n = db.files.read n) :
    Compacted cfg v other job I := by
  refine ⟨compacted.before, compacted.start, compacted.wide, compacted.groups, compacted.nonempty, fun m member => ?_⟩
  obtain ⟨holds, first, head, named⟩ := compacted.merged m member
  refine ⟨holds.frame (same _ ?_), first, head, named⟩
  rw [named, genMergedSSTableFileName, FileName.extension_add]

theorem Compacting.frame (compacting : Compacting cfg permit v db)
    (queue : other.ssTableIndexQueue = db.ssTableIndexQueue)
    (future : other.ssTableCompactionFuture = db.ssTableCompactionFuture)
    (same : ∀ n : FileName, n.extension = some .merged → other.files.read n = db.files.read n) :
    Compacting cfg permit v other := by
  intro job launched
  obtain ⟨begins, ends, positive, inside, state⟩ := compacting job (future ▸ launched)
  refine ⟨by rw [queue]; exact begins, ends, positive, inside, state.imp_right ?_⟩
  rintro ⟨I, ready, compacted, permitted⟩
  exact ⟨I, ready, compacted.frame same, permitted⟩

/-- A compaction is about the queue alone. -/
theorem Compacting.view (compacting : Compacting cfg permit v db) {w : View} (same : w.queue = v.queue) :
    Compacting cfg permit w db := by
  intro job launched
  obtain ⟨begins, ends, positive, inside, state⟩ := compacting job launched
  refine ⟨begins, ends, positive, same ▸ inside, state.imp_right ?_⟩
  rintro ⟨I, ready, compacted, permitted⟩
  refine ⟨I, ready, ?_, same ▸ permitted⟩
  exact ⟨same ▸ compacted.before, compacted.start, compacted.wide, compacted.groups, compacted.nonempty,
    compacted.merged⟩

/-- The names of the shelf are those of SSTables, all different. -/
theorem Inv.rangeNames (flushing : Flushing v other) (shelved : Shelved v db) : RangeNames v.shelf := by
  refine ⟨fun x member => shelved.sst member, ?_⟩
  have strict := (List.pairwise_append.mp flushing.order).1
  have counters : (v.shelf.map fun x => x.1.ssTableFileName.counter).Nodup := strict.imp fun below same => by omega
  have names : v.shelf.map (fun x => x.1.ssTableFileName.counter) =
      (v.shelf.map fun x => x.1.ssTableFileName).map (·.counter) := by rw [List.map_map]; rfl
  rw [names] at counters
  exact counters.of_map _

theorem Inv.queue_length (inv : Inv cfg permit v db) (room : db.ssTableFileCounterBase < 2 ^ 32) :
    db.ssTableIndexQueue.queue.length ≤ 2 ^ 32 := by
  have increasing := (List.pairwise_append.mp inv.flushing.order).1
  have bounded : ∀ c ∈ v.shelf.map counterOf, c < 2 ^ 32 := fun c member =>
    (inv.flushing.base c (List.mem_append_left _ member)).trans_lt room
  have fits := length_le_of_increasing increasing bounded
  rw [← inv.shelved.queue]
  simp only [View.shelf, List.length_map, List.length_append] at fits ⊢
  omega

theorem Inv.onDisk (inv : Inv cfg permit v db) : OnDisk db.files db.ssTableIndexQueue.queue v.queue where
  queue := inv.shelved.queue
  holds x member := inv.shelved.holds x (List.mem_append_left _ member)
  names := (Inv.rangeNames inv.flushing inv.shelved).sublist (List.sublist_append_left _ _)

end ProjectDbImpl
end ProjectDb
