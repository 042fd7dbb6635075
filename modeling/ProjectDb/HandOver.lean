import ProjectDb.JobSteps

namespace ProjectDb
namespace ProjectDbImpl

variable {cfg : Config} {permit : List SSTable → Nat → Prop} {v : View} {db : ProjectDbImpl}

/-- The state after the oldest flush job has been taken and its file renamed. -/
def tookFlush (db : ProjectDbImpl) (job : FlushJob) (rest : List FlushJob) (files : Files) : ProjectDbImpl :=
  { db with files := files, flushToDiskFutures := { job with future := .consumed } :: rest }

section Take
variable {job : FlushJob} {rest : List FlushJob} {index : SSTableIndex} {s : SSTable} {files : Files}

/-- The element that a flushed file becomes once it is renamed. -/
def flushedElement (job : FlushJob) (index : SSTableIndex) (s : SSTable) : Indexed :=
  ({ index with ssTableFileName := job.fileName.removeExt }, s)

theorem Flushing.head (flushing : Flushing v db) (fresh : v.taken = 0) (queue : db.flushToDiskFutures = job :: rest) :
    db.pendingJobs v = job :: rest ∧
      job.fileName = genFlushInProgressSSTableFileName (genSSTableFileName job.fileName.counter) ∧
      job.fileName.removeExt = genSSTableFileName job.fileName.counter := by
  have pending : db.pendingJobs v = job :: rest := by rw [pendingJobs, fresh, List.drop_zero, queue]
  have named := flushing.named job (by rw [pending]; exact List.mem_cons_self ..)
  refine ⟨pending, named, ?_⟩
  rw [named, genFlushInProgressSSTableFileName, FileName.removeExt_add]
  rfl

/-- The counters of the pending jobs are above those of the shelf, and apart. -/
theorem Flushing.headOrder (flushing : Flushing v db) (pending : db.pendingJobs v = job :: rest) :
    (∀ x ∈ v.shelf, counterOf x < job.fileName.counter) ∧ ∀ other ∈ rest, job.fileName.counter < other.fileName.counter := by
  have order := flushing.order
  rw [pending, List.map_cons] at order
  obtain ⟨_, jobs, below⟩ := List.pairwise_append.mp order
  refine ⟨fun x member => below _ (List.mem_map_of_mem member) _ (List.mem_cons_self ..), fun other member => ?_⟩
  exact (List.pairwise_cons.mp jobs).1 _ (List.mem_map_of_mem member)

/-- The reads of the directory after the rename. -/
def Renamed (db : ProjectDbImpl) (job : FlushJob) (files : Files) : Prop :=
  ∀ n, files.read n = if n = job.fileName.removeExt then db.files.read job.fileName
    else if n = job.fileName then none else db.files.read n

theorem Renamed.other (renamed : Renamed db job files) {n : FileName} (notSst : n.extension ≠ some .sst)
    (notIp : n.extension ≠ some .ip)
    (named : job.fileName = genFlushInProgressSSTableFileName (genSSTableFileName job.fileName.counter)) :
    files.read n = db.files.read n := by
  rw [renamed, if_neg, if_neg]
  · rintro rfl
    rw [named, genFlushInProgressSSTableFileName, FileName.extension_add] at notIp
    exact notIp rfl
  · rintro rfl
    rw [named, genFlushInProgressSSTableFileName, FileName.removeExt_add] at notSst
    exact notSst rfl

theorem Flushing.take (flushing : Flushing v db) (fresh : v.taken = 0) (queue : db.flushToDiskFutures = job :: rest)
    (renamed : Renamed db job files) :
    Flushing { v with handed := v.handed ++ [flushedElement job index s], taken := 1 }
      (db.tookFlush job rest files) := by
  obtain ⟨pending, named, sst⟩ := flushing.head fresh queue
  obtain ⟨_, apart⟩ := flushing.headOrder pending
  have later : pendingJobs { v with handed := v.handed ++ [flushedElement job index s], taken := 1 }
      (db.tookFlush job rest files) = rest := rfl
  have element : counterOf (flushedElement job index s) = job.fileName.counter := by
    rw [counterOf, flushedElement, sst]
    rfl
  have counters : View.shelf { v with handed := v.handed ++ [flushedElement job index s], taken := 1 } =
      v.shelf ++ [flushedElement job index s] := by rw [View.shelf, View.shelf, List.append_assoc]
  have whole : (v.shelf ++ [flushedElement job index s]).map counterOf ++ rest.map (·.fileName.counter) =
      v.shelf.map counterOf ++ (db.pendingJobs v).map (·.fileName.counter) := by
    rw [pending, List.map_append, List.append_assoc, List.map_singleton, element, List.map_cons]
    rfl
  refine ⟨?_, ?_, ?_, flushing.distinct, flushing.allocated, flushing.memory, flushing.retired, ?_, ?_, ?_, ?_⟩
  · simp [tookFlush]
  · simp [tookFlush]
  · have aligned := flushing.aligned
    rw [queue] at aligned
    exact aligned
  · rw [later]
    intro other member
    have sound := flushing.sound other (by rw [pending]; exact List.mem_cons_of_mem _ member)
    refine sound.frame rfl ?_
    have differ := apart other member
    have otherNamed := flushing.named other (by rw [pending]; exact List.mem_cons_of_mem _ member)
    have isIp : other.fileName.extension = some .ip := by
      rw [otherNamed, genFlushInProgressSSTableFileName, FileName.extension_add]
    rw [show (db.tookFlush job rest files).files = files from rfl, renamed, if_neg, if_neg]
    · intro same
      rw [same] at differ
      exact lt_irrefl _ differ
    · intro same
      rw [same, sst, extension_genSSTableFileName] at isIp
      contradiction
  · rw [later]
    exact fun other member => flushing.named other (by rw [pending]; exact List.mem_cons_of_mem _ member)
  · rw [later, counters, whole]
    exact flushing.order
  · rw [later, counters, whole]
    exact flushing.base

theorem Shelved.take (shelved : Shelved v db) (flushing : Flushing v db) (fresh : v.taken = 0)
    (queue : db.flushToDiskFutures = job :: rest) (renamed : Renamed db job files) (holds : index.Holds db.files s)
    (fileName : index.ssTableFileName = job.fileName) :
    Shelved { v with handed := v.handed ++ [flushedElement job index s], taken := 1 }
      (db.tookFlush job rest files) := by
  obtain ⟨pending, named, sst⟩ := flushing.head fresh queue
  obtain ⟨below, _⟩ := flushing.headOrder pending
  have shelf : View.shelf { v with handed := v.handed ++ [flushedElement job index s], taken := 1 } =
      v.shelf ++ [flushedElement job index s] := by rw [View.shelf, View.shelf, List.append_assoc]
  have notIp : ∀ n : FileName, n.extension = some .sst → n ≠ job.fileName := by
    intro n isSst same
    rw [same, named, genFlushInProgressSSTableFileName, FileName.extension_add] at isSst
    exact absurd isSst (by decide)
  refine ⟨shelved.queue, ?_, ?_, ?_, shelved.start⟩
  · rw [shelf]
    intro x member
    rcases List.mem_append.mp member with old | new
    · refine (shelved.holds x old).frame ?_
      have less := below x old
      rw [show (db.tookFlush job rest files).files = files from rfl, renamed, if_neg, if_neg (notIp _ (shelved.sst old))]
      intro same
      rw [counterOf, same, sst] at less
      exact lt_irrefl _ less
    · obtain rfl := List.mem_singleton.mp new
      refine holds.rename ?_
      rw [show (db.tookFlush job rest files).files = files from rfl, renamed, if_pos rfl, fileName]
  · rw [shelf]
    intro x member
    rcases List.mem_append.mp member with old | new
    · exact shelved.named x old
    · obtain rfl := List.mem_singleton.mp new
      rw [counterOf, flushedElement, sst]
      rfl
  · rw [shelf]
    intro n isSst bytes found
    rw [List.map_append, List.mem_append]
    rw [show (db.tookFlush job rest files).files = files from rfl, renamed, if_neg (notIp n isSst)] at found
    by_cases same : n = job.fileName.removeExt
    · exact Or.inr (by simp [flushedElement, same])
    · rw [if_neg same] at found
      exact Or.inl (shelved.listed n isSst bytes found)

end Take

/-- Polling the oldest flush job finds none, finds it running, or takes its
result: then its file has become an SSTable that holds the oldest MemTable. -/
theorem Inv.takeFlush (inv : Inv cfg permit v db) (fresh : v.taken = 0) :
    (db.flushToDiskFutures = [] ∧ ProjectDbImpl.takeFlush db = .ok .absent db) ∨
      (∃ job rest, db.flushToDiskFutures = job :: rest ∧ job.future = .running ∧
        ProjectDbImpl.takeFlush db = .ok .pending db) ∨
      ∃ job rest x files, db.flushToDiskFutures = job :: rest ∧
        ProjectDbImpl.takeFlush db = .ok (.done x.1) (db.tookFlush job rest files) ∧
        x.2.table = db.tables job.table ∧
        Inv cfg permit { v with handed := v.handed ++ [x], taken := 1 } (db.tookFlush job rest files) := by
  cases queue : db.flushToDiskFutures with
  | nil => exact Or.inl ⟨rfl, takeFlush_absent queue⟩
  | cons job rest =>
    obtain ⟨pending, named, _⟩ := inv.flushing.head fresh queue
    rcases inv.flushing.sound job (by rw [pending]; exact List.mem_cons_self ..) with
      running | ⟨index, s, ready, fileName, table, holds⟩
    · exact Or.inr (Or.inl ⟨job, rest, rfl, running, takeFlush_running queue running⟩)
    · obtain ⟨files, moved⟩ := Directory.rename_exists (fileName ▸ holds.file) job.fileName.removeExt
      have renamed : Renamed db job files := Directory.rename_eq_some moved
      have untouched (n : FileName) (notSst : n.extension ≠ some .sst) (notIp : n.extension ≠ some .ip) :
          files.read n = db.files.read n := renamed.other notSst notIp named
      refine Or.inr (Or.inr ⟨job, rest, flushedElement job index s, files, rfl, ?_, table, ?_⟩)
      · rw [takeFlush_done queue ready, removeExtAndRename, fileName, moved]
        rfl
      · refine ⟨inv.flushing.take fresh queue renamed, ?_, inv.shelved.take inv.flushing fresh queue renamed holds fileName, ?_⟩
        · refine ⟨inv.logging.names, fun n isLog bytes => ?_, inv.logging.order, inv.logging.base⟩
          rw [show (db.tookFlush job rest files).files = files from rfl,
            untouched n (by rw [isLog]; decide) (by rw [isLog]; decide)]
          exact inv.logging.files n isLog bytes
        · have viewed : Compacting cfg permit { v with handed := v.handed ++ [flushedElement job index s], taken := 1 }
              db := inv.compacting.view rfl
          refine viewed.frame ?_ ?_ fun n isMerged => ?_
          · rfl
          · rfl
          · exact untouched n (by rw [isMerged]; decide) (by rw [isMerged]; decide)

section Pop

/-- The state after the oldest MemTable has been removed with its future. -/
def popped (db : ProjectDbImpl) (files : Files) : ProjectDbImpl :=
  { db with
    files := files
    memTableQueue := db.memTableQueue.tail
    flushToDiskFutures := db.flushToDiskFutures.tail }

/-- There is a MemTable behind the one whose flush has been taken. -/
theorem Flushing.second (flushing : Flushing v db) (taken : v.taken = 1) :
    ∃ e f rest, db.memTableQueue = e :: f :: rest := by
  have early := flushing.early
  have aligned := congrArg List.length flushing.aligned
  rw [List.length_map, List.length_map, List.length_dropLast] at aligned
  rcases queue : db.memTableQueue with _ | ⟨e, _ | ⟨f, rest⟩⟩
  · rw [queue] at aligned
    simp only [List.length_nil] at aligned
    omega
  · rw [queue] at aligned
    simp only [List.length_singleton] at aligned
    omega
  · exact ⟨e, f, rest, rfl⟩

theorem Flushing.pop (flushing : Flushing v db) (taken : v.taken = 1) {files : Files}
    (ip : ∀ n : FileName, n.extension = some .ip → files.read n = db.files.read n) :
    Flushing { v with logs := v.logs.tail, memory := v.memory.tail, taken := 0 } (db.popped files) := by
  obtain ⟨e, f, rest, queue⟩ := flushing.second taken
  have pending : pendingJobs { v with logs := v.logs.tail, memory := v.memory.tail, taken := 0 } (db.popped files) =
      db.pendingJobs v := by
    rw [pendingJobs, pendingJobs, taken, List.drop_zero, List.drop_one]
    rfl
  have tail : (db.popped files).memTableQueue = f :: rest := by simp only [popped, queue, List.tail_cons]
  refine ⟨Nat.zero_le _, by simp, ?_, ?_, ?_, ?_, ?_, ?_, ?_, ?_, ?_⟩
  · have aligned := congrArg List.tail flushing.aligned
    rw [queue, List.dropLast_cons_of_ne_nil (List.cons_ne_nil _ _), List.map_cons, List.tail_cons, ← List.map_tail]
      at aligned
    rw [tail]
    exact aligned
  · have distinct := flushing.distinct
    rw [queue, List.map_cons] at distinct
    rw [tail]
    exact (List.nodup_cons.mp distinct).2
  · intro g member
    rw [tail] at member
    exact flushing.allocated g (by rw [queue]; exact List.mem_cons_of_mem _ member)
  · rw [← flushing.memory, queue, tail]
    rfl
  · have last : (db.popped files).memTableQueue.getLast? = db.memTableQueue.getLast? := by
      rw [tail, queue, List.getLast?_cons_cons]
    rw [last]
    exact flushing.retired
  · rw [pending]
    intro job member
    refine (flushing.sound job member).frame rfl (ip _ ?_)
    rw [flushing.named job member, genFlushInProgressSSTableFileName, FileName.extension_add]
  · rw [pending]
    exact flushing.named
  · rw [pending]
    exact flushing.order
  · rw [pending]
    exact flushing.base

theorem Logging.pop (logging : Logging v db) {e : MemTable × TransactionLogWritter}
    {rest : List (MemTable × TransactionLogWritter)} (queue : db.memTableQueue = e :: rest) {files : Files}
    (moved : db.files.rename e.2.transactionLogFileName (genDeprecatedFileName e.2.transactionLogFileName) =
      some files) :
    Logging { v with logs := v.logs.tail, memory := v.memory.tail, taken := 0 } (db.popped files) := by
  have names := logging.names
  have order := logging.order
  cases logs : v.logs with
  | nil =>
    rw [queue, logs] at names
    contradiction
  | cons l ls =>
    rw [queue, logs, List.map_cons, List.map_cons] at names
    obtain ⟨first, others⟩ := List.cons.inj names
    rw [logs, List.map_cons, List.pairwise_cons] at order
    refine ⟨by simp only [popped, queue, List.tail_cons, others], fun n isLog bytes => ?_, order.2, ?_⟩
    · have read : (db.popped files).files.read n =
          if n = e.2.transactionLogFileName then none else db.files.read n := by
        rw [popped, Directory.rename_eq_some moved, if_neg]
        rintro rfl
        rw [genDeprecatedFileName, FileName.extension_add] at isLog
        contradiction
      have listed := logging.files n isLog bytes
      rw [logs] at listed
      rw [read, first]
      split_ifs with same
      · simp only [List.tail_cons, false_iff, not_exists, not_and]
        intro k member equal
        have above := order.1 k.1 (List.mem_map_of_mem member)
        rw [same] at equal
        have counters := congrArg FileName.counter equal
        simp only [genTransactionLogFileName] at counters
        omega
      · rw [listed, List.tail_cons]
        constructor
        · rintro ⟨k, member, equal, content⟩
          rcases List.mem_cons.mp member with rfl | member
          · exact absurd equal same
          · exact ⟨k, member, equal, content⟩
        · rintro ⟨k, member, all⟩
          exact ⟨k, List.mem_cons_of_mem _ member, all⟩
    · intro k member
      exact logging.base k (by rw [logs]; exact List.mem_cons_of_mem _ member)

/-- Removing the oldest MemTable marks its log, and no other, as deprecated. -/
theorem Inv.discard (inv : Inv cfg permit v db) (taken : v.taken = 1) :
    ∃ files, ProjectDbImpl.discard db = .ok () (db.popped files) ∧
      Inv cfg permit { v with logs := v.logs.tail, memory := v.memory.tail, taken := 0 } (db.popped files) := by
  obtain ⟨e, f, rest, queue⟩ := inv.flushing.second taken
  have names := inv.logging.names
  obtain ⟨l, logged, named⟩ : ∃ l ∈ v.logs, genTransactionLogFileName l.1 = e.2.transactionLogFileName := by
    rw [queue, List.map_cons] at names
    exact List.mem_map.mp (names ▸ List.mem_cons_self ..)
  have isLog : e.2.transactionLogFileName.extension = some .txl := by rw [← named]; rfl
  have exists_ := (inv.logging.files _ isLog l.2).mpr ⟨l, logged, named.symm, rfl⟩
  obtain ⟨files, moved⟩ := Directory.rename_exists exists_ (genDeprecatedFileName e.2.transactionLogFileName)
  have other (n : FileName) (notLog : n.extension ≠ some .txl) (notDeprecated : n.extension ≠ some .deprecated) :
      files.read n = db.files.read n := by
    rw [Directory.rename_eq_some moved, if_neg, if_neg]
    · rintro rfl
      exact notLog isLog
    · rintro rfl
      exact notDeprecated (FileName.extension_add _ _)
  refine ⟨files, ?_, ?_, inv.logging.pop queue moved, ?_, ?_⟩
  · simp only [ProjectDbImpl.discard, MemTableQueue.pop, DbM.current, DbM.assign, DbM.file, DbM.change,
      markFileAsDeprecated, bind, EStateM.bind, queue, moved, popped, List.tail_cons]
  · exact inv.flushing.pop taken fun n isIp => other n (by rw [isIp]; decide) (by rw [isIp]; decide)
  · have shelved : Shelved v (db.popped files) := by
      refine inv.shelved.frame ?_ fun n isSst => ?_
      · rfl
      · exact other n (by rw [isSst]; decide) (by rw [isSst]; decide)
    exact ⟨shelved.queue, shelved.holds, shelved.named, shelved.listed, shelved.start⟩
  · have framed : Compacting cfg permit v (db.popped files) := by
      refine inv.compacting.frame ?_ ?_ fun n isMerged => ?_
      · rfl
      · rfl
      · exact other n (by rw [isMerged]; decide) (by rw [isMerged]; decide)
    exact framed.view rfl

/-- An SSTable of the shelf enters the queue. -/
def inserted (db : ProjectDbImpl) (index : SSTableIndex) : ProjectDbImpl :=
  { db with ssTableIndexQueue := { db.ssTableIndexQueue with queue := db.ssTableIndexQueue.queue ++ [index] } }

theorem Inv.insert (inv : Inv cfg permit v db) {x : Indexed} {handed : List Indexed} (next : v.handed = x :: handed)
    (idle : db.ssTableCompactionFuture = none) :
    Inv cfg permit { v with queue := v.queue ++ [x], handed := handed } (db.inserted x.1) := by
  have shelf : View.shelf { v with queue := v.queue ++ [x], handed := handed } = v.shelf := by
    simp only [View.shelf, next, List.append_assoc, List.singleton_append]
  obtain ⟨flushing, logging, shelved, _⟩ := inv
  refine ⟨?_, ⟨logging.names, logging.files, logging.order, logging.base⟩, ?_, ?_⟩
  · refine ⟨flushing.early, flushing.taken, flushing.aligned, flushing.distinct, flushing.allocated, flushing.memory,
      flushing.retired, flushing.sound, flushing.named, ?_, ?_⟩
    · rw [shelf]
      exact flushing.order
    · rw [shelf]
      exact flushing.base
  · refine ⟨?_, ?_, ?_, ?_, ?_⟩
    · simp only [inserted, List.map_append, shelved.queue, List.map_singleton]
    · rw [shelf]
      exact shelved.holds
    · rw [shelf]
      exact shelved.named
    · rw [shelf]
      exact shelved.listed
    · rcases shelved.start with zero | below
      · exact Or.inl zero
      · refine Or.inr (below.trans ?_)
        simp
  · intro job launched
    have none : db.ssTableCompactionFuture = some job := launched
    rw [idle] at none
    contradiction

/-- Handing a flushed table over: it enters the queue as the newest SSTable,
and its MemTable leaves. -/
theorem Inv.handOver (inv : Inv cfg permit v db) {x : Indexed} {handed : List Indexed} (next : v.handed = x :: handed)
    (taken : v.taken = 1) (idle : db.ssTableCompactionFuture = none) :
    ∃ files, ProjectDbImpl.handOver x.1 db = .ok () ((db.inserted x.1).popped files) ∧
      Inv cfg permit ⟨v.queue ++ [x], handed, v.logs.tail, v.memory.tail, v.retired, 0⟩
        ((db.inserted x.1).popped files) := by
  obtain ⟨files, run, popped⟩ := (inv.insert next idle).discard taken
  exact ⟨files, run, popped⟩

end Pop

/-- A compaction is launched on the window of the start index, if at all. -/
theorem Inv.launchCompaction (inv : Inv cfg permit v db) (idle : db.ssTableCompactionFuture = none)
    (room : db.ssTableFileCounterBase < 2 ^ 32) :
    ∃ future, ProjectDbImpl.launchCompaction cfg db = .ok () { db with ssTableCompactionFuture := future } ∧
      Inv cfg permit v { db with ssTableCompactionFuture := future } ∧
      (cfg.numSSTableToCompact.toNat = 0 → future = none) := by
  rcases tryLaunchCompaction_eq cfg db with launch | ⟨positive, launch⟩
  · have same : { db with ssTableCompactionFuture := none } = db := by rw [← idle]
    refine ⟨none, ?_, same.symm ▸ inv, fun _ => rfl⟩
    simp only [ProjectDbImpl.launchCompaction, bind, EStateM.bind, launch, same]
    rfl
  · refine ⟨some (windowJob cfg db), ?_, ⟨?_, ?_, ?_, ?_⟩, fun zero => absurd zero positive⟩
    · simp only [ProjectDbImpl.launchCompaction, bind, EStateM.bind, launch]
      rfl
    · exact inv.flushing.frame ⟨rfl, rfl, rfl, rfl, rfl, rfl⟩ fun _ _ => rfl
    · exact inv.logging.frame ⟨rfl, rfl, rfl, rfl, rfl, rfl⟩ fun _ _ => rfl
    · exact inv.shelved.frame rfl fun _ _ => rfl
    · intro job launched
      cases launched
      refine ⟨rfl, rfl, positive, fun small => ?_, Or.inl rfl⟩
      have queue : v.queue.length = db.ssTableIndexQueue.queue.length := by rw [← inv.shelved.queue, List.length_map]
      rw [queue]
      exact windowJob_inside launch small (inv.queue_length room) (queue ▸ inv.shelved.start)

end ProjectDbImpl
end ProjectDb
