import ProjectDb.HandOver

namespace ProjectDb
namespace ProjectDbImpl

variable {cfg : Config} {fmt : LogFormat} {permit : List SSTable → Nat → Prop} {v : View} {db : ProjectDbImpl}

section Emplace

/-- The state after an empty MemTable with a new log has joined the queue. -/
def emplaced (db : ProjectDbImpl) : ProjectDbImpl :=
  { db with
    files := db.files.write (genTransactionLogFileName db.transactionLogFileCounterBase) []
    tables := fun address => if address = db.nextTable then .empty else db.tables address
    nextTable := db.nextTable + 1
    transactionLogFileCounterBase := db.transactionLogFileCounterBase + 1
    memTableQueue := db.memTableQueue ++
      [(⟨db.nextTable⟩, ⟨genTransactionLogFileName db.transactionLogFileCounterBase⟩)] }

/-- The next log has a name of its own. -/
theorem Logging.unused (logging : Logging v db) :
    db.files.read (genTransactionLogFileName db.transactionLogFileCounterBase) = none := by
  by_contra used
  obtain ⟨bytes, found⟩ := Option.ne_none_iff_exists'.mp used
  obtain ⟨l, logged, same, _⟩ := (logging.files _ rfl bytes).mp found
  have below := logging.base l logged
  have counters := congrArg FileName.counter same
  simp only [genTransactionLogFileName] at counters
  omega

theorem Logging.emplaceNew (logging : Logging v db) (room : db.transactionLogFileCounterBase + 1 < 2 ^ 32) :
    MemTableQueue.emplaceNew db = .ok () db.emplaced := by
  have wrapped : (db.transactionLogFileCounterBase + 1) % 2 ^ 32 = db.transactionLogFileCounterBase + 1 :=
    Nat.mod_eq_of_lt room
  simp only [MemTableQueue.emplaceNew, MemTable.create, TransactionLogWritter.create, MemTableQueue.emplaceBack,
    DbM.current, DbM.assign, DbM.file, DbM.change, openForAppend, bind, EStateM.bind, pure, EStateM.pure,
    logging.unused, wrapped, emplaced]

theorem Logging.emplace (logging : Logging v db) {w : View}
    (logs : w.logs = v.logs ++ [(db.transactionLogFileCounterBase, [])]) : Logging w db.emplaced := by
  refine ⟨?_, fun n isLog bytes => ?_, ?_, ?_⟩
  · simp only [emplaced, List.map_append, logging.names, logs, List.map_singleton]
  · have old := logging.files n isLog bytes
    rw [logs]
    change (db.files.write _ _).read n = some bytes ↔ _
    rw [Directory.read_write]
    by_cases same : n = genTransactionLogFileName db.transactionLogFileCounterBase
    · rw [if_pos same]
      constructor
      · intro empty
        exact ⟨_, List.mem_append_right _ (List.mem_singleton_self _), same, (Option.some.inj empty).symm⟩
      · rintro ⟨l, member, named, content⟩
        rcases List.mem_append.mp member with earlier | last
        · have used := old.mpr ⟨l, earlier, named, content⟩
          rw [same, logging.unused] at used
          contradiction
        · rw [List.mem_singleton.mp last] at content
          rw [content]
    · rw [if_neg same, old]
      constructor
      · rintro ⟨l, member, all⟩
        exact ⟨l, List.mem_append_left _ member, all⟩
      · rintro ⟨l, member, named, content⟩
        rcases List.mem_append.mp member with earlier | last
        · exact ⟨l, earlier, named, content⟩
        · rw [List.mem_singleton.mp last] at named
          exact absurd named same
  · rw [logs, List.map_append, List.map_singleton]
    refine List.pairwise_append.mpr ⟨logging.order, List.pairwise_singleton _ _, fun c old d new => ?_⟩
    obtain ⟨l, member, rfl⟩ := List.mem_map.mp old
    obtain rfl := List.mem_singleton.mp new
    exact logging.base l member
  · rw [logs]
    intro l member
    change l.1 < db.transactionLogFileCounterBase + 1
    rcases List.mem_append.mp member with earlier | last
    · exact (logging.base l earlier).trans (Nat.lt_succ_self _)
    · rw [List.mem_singleton.mp last]
      exact Nat.lt_succ_self _

/-- Creating a log changes no other file. -/
theorem emplaced_read {n : FileName} (notLog : n.extension ≠ some .txl) : db.emplaced.files.read n = db.files.read n := by
  change (db.files.write _ _).read n = db.files.read n
  rw [Directory.read_write, if_neg]
  rintro rfl
  exact notLog rfl

theorem Flushing.flushed_allocated (flushing : Flushing v db) {job : FlushJob} (member : job ∈ db.flushToDiskFutures) :
    job.table ∈ db.memTableQueue.dropLast.map (·.1.table) ∧ job.table < db.nextTable := by
  have listed : job.table ∈ db.memTableQueue.dropLast.map (·.1.table) := by
    rw [← flushing.aligned]
    exact List.mem_map_of_mem member
  refine ⟨listed, ?_⟩
  obtain ⟨e, inside, same⟩ := List.mem_map.mp listed
  rw [← same]
  exact flushing.allocated e (List.dropLast_subset _ inside)

/-- The parts of the invariant of the flushes that a new MemTable at the end
of the queue does not depend on. -/
theorem Flushing.emplace (flushing : Flushing v db) :
    (db.emplaced.memTableQueue.map (·.1.table)).Nodup ∧
      (∀ e ∈ db.emplaced.memTableQueue, e.1.table < db.emplaced.nextTable) ∧
      db.emplaced.memTableQueue.map (fun e => db.emplaced.tables e.1.table) = v.memory ++ [.empty] ∧
      (∀ r ∈ v.retired, r.1 < db.emplaced.nextTable ∧ db.emplaced.tables r.1 = r.2 ∧
        ∀ e, db.emplaced.memTableQueue.getLast? = some e → e.1.table ≠ r.1) ∧
      ∀ job ∈ db.pendingJobs v, db.emplaced.Sound job := by
  have old (address : Nat) (below : address < db.nextTable) : db.emplaced.tables address = db.tables address :=
    if_neg (by omega)
  refine ⟨?_, ?_, ?_, ?_, ?_⟩
  · simp only [emplaced, List.map_append, List.map_singleton]
    refine List.nodup_append.mpr ⟨flushing.distinct, List.nodup_singleton _, fun a before b new same => ?_⟩
    obtain ⟨e, member, rfl⟩ := List.mem_map.mp before
    rw [List.mem_singleton.mp new] at same
    have below := flushing.allocated e member
    omega
  · intro e member
    change e.1.table < db.nextTable + 1
    rcases List.mem_append.mp member with earlier | last
    · exact (flushing.allocated e earlier).trans (Nat.lt_succ_self _)
    · rw [List.mem_singleton.mp last]
      exact Nat.lt_succ_self _
  · have earlier : db.memTableQueue.map (fun e => db.emplaced.tables e.1.table) = v.memory := by
      rw [← flushing.memory]
      exact List.map_congr_left fun e member => old _ (flushing.allocated e member)
    change (db.memTableQueue ++ _).map _ = _
    rw [List.map_append, earlier, List.map_singleton]
    simp [emplaced]
  · intro r member
    obtain ⟨below, table, _⟩ := flushing.retired r member
    refine ⟨below.trans (Nat.lt_succ_self _), (old _ below).trans table, fun e last => ?_⟩
    rw [emplaced, List.getLast?_append, List.getLast?_singleton] at last
    cases last
    exact below.ne'
  · intro job member
    rcases flushing.sound job member with running | ⟨index, s, ready, fileName, table, holds⟩
    · exact Or.inl running
    · refine Or.inr ⟨index, s, ready, fileName, ?_, holds.frame (emplaced_read ?_)⟩
      · rw [table, old _ (flushing.flushed_allocated (List.mem_of_mem_drop member)).2]
      · rw [fileName, flushing.named job member, genFlushInProgressSSTableFileName, FileName.extension_add]
        decide

/-- The first MemTable of an empty queue. -/
theorem Inv.prepare (inv : Inv cfg permit v db) (room : db.transactionLogFileCounterBase + 1 < 2 ^ 32) :
    (db.memTableQueue ≠ [] ∧ MemTableQueue.prepare db = .ok () db) ∨
      v.memory = [] ∧ MemTableQueue.prepare db = .ok () db.emplaced ∧
        Inv cfg permit { v with logs := v.logs ++ [(db.transactionLogFileCounterBase, [])], memory := [.empty] }
          db.emplaced := by
  cases queue : db.memTableQueue with
  | cons e rest =>
    refine Or.inl ⟨List.cons_ne_nil _ _, ?_⟩
    simp only [MemTableQueue.prepare, DbM.current, bind, EStateM.bind, queue, List.isEmpty_cons]
    rfl
  | nil =>
    have memory := inv.flushing.memory
    rw [queue, List.map_nil] at memory
    have idle : db.flushToDiskFutures = [] := by
      have aligned := inv.flushing.aligned
      rw [queue, List.dropLast_nil, List.map_nil] at aligned
      exact List.map_eq_nil_iff.mp aligned
    obtain ⟨distinct, allocated, tables, retired, sound⟩ := inv.flushing.emplace
    refine Or.inr ⟨memory.symm, ?_, ?_, inv.logging.emplace rfl, ?_, ?_⟩
    · simp only [MemTableQueue.prepare, DbM.current, bind, EStateM.bind, queue, List.isEmpty_nil, if_true,
        inv.logging.emplaceNew room]
    · refine ⟨inv.flushing.early, inv.flushing.taken, ?_, distinct, allocated, ?_, retired, sound,
        inv.flushing.named, inv.flushing.order, inv.flushing.base⟩
      · simp [emplaced, idle, queue]
      · rw [tables, ← memory, List.nil_append]
    · have shelved : Shelved v db.emplaced := inv.shelved.frame rfl fun n isSst => emplaced_read (by rw [isSst]; decide)
      exact ⟨shelved.queue, shelved.holds, shelved.named, shelved.listed, shelved.start⟩
    · have compacting : Compacting cfg permit v db.emplaced :=
        inv.compacting.frame rfl rfl fun n isMerged => emplaced_read (by rw [isMerged]; decide)
      exact compacting.view rfl

end Emplace

section Append

/-- The state after an operation has been logged and applied to the last MemTable. -/
def appended (db : ProjectDbImpl) (op : Operation) (e : MemTable × TransactionLogWritter) (contents : List Byte) :
    ProjectDbImpl :=
  { db with
    files := db.files.write e.2.transactionLogFileName contents
    tables := fun address => if address = e.1.table then op.apply (db.tables address) else db.tables address }

variable {earlier : List (MemTable × TransactionLogWritter)} {e : MemTable × TransactionLogWritter}

theorem Flushing.append (flushing : Flushing v db) (queue : db.memTableQueue = earlier ++ [e]) (op : Operation)
    (contents : List Byte) (isLog : e.2.transactionLogFileName.extension = some .txl) {w : View}
    (shelf : w.shelf = v.shelf) (memory : w.memory = v.memory.dropLast ++ [op.apply (db.tables e.1.table)])
    (retired : w.retired = v.retired) (taken : w.taken = v.taken) : Flushing w (db.appended op e contents) := by
  have last : db.memTableQueue.getLast? = some e := by rw [queue, List.getLast?_concat]
  have other (address : Nat) (differs : address ≠ e.1.table) :
      (db.appended op e contents).tables address = db.tables address := if_neg differs
  have distinct := flushing.distinct
  rw [queue, List.map_append, List.map_singleton] at distinct
  obtain ⟨_, _, apart⟩ := List.nodup_append.mp distinct
  have before : ∀ f ∈ earlier, f.1.table ≠ e.1.table := fun f member =>
    apart _ (List.mem_map_of_mem member) _ (List.mem_singleton_self _)
  have pending : pendingJobs w (db.appended op e contents) = db.pendingJobs v := by
    rw [pendingJobs, taken]
    rfl
  refine ⟨taken ▸ flushing.early, taken ▸ flushing.taken, flushing.aligned, flushing.distinct, flushing.allocated,
    ?_, ?_, ?_, ?_, ?_, ?_⟩
  · have tables : earlier.map (fun f => (db.appended op e contents).tables f.1.table) =
        earlier.map fun f => db.tables f.1.table := List.map_congr_left fun f member => other _ (before f member)
    change db.memTableQueue.map _ = w.memory
    rw [memory, ← flushing.memory, queue, List.map_append, tables, List.map_append, List.map_singleton,
      List.map_singleton, List.dropLast_concat]
    simp [appended]
  · rw [retired]
    intro r member
    obtain ⟨below, table, notLast⟩ := flushing.retired r member
    exact ⟨below, (other _ (notLast e last).symm).trans table, notLast⟩
  · rw [pending]
    intro job member
    have flushed := (flushing.flushed_allocated (List.mem_of_mem_drop member)).1
    rw [queue, List.dropLast_concat] at flushed
    obtain ⟨f, inside, same⟩ := List.mem_map.mp flushed
    rcases flushing.sound job member with running | ⟨index, s, ready, fileName, table, holds⟩
    · exact Or.inl running
    · refine Or.inr ⟨index, s, ready, fileName, ?_, holds.frame ?_⟩
      · rw [table, other _ (same ▸ before f inside)]
      · change (db.files.write _ _).read _ = _
        rw [Directory.read_write, if_neg]
        intro equal
        rw [← equal, fileName, flushing.named job member, genFlushInProgressSSTableFileName,
          FileName.extension_add] at isLog
        contradiction
  · rw [pending]
    exact flushing.named
  · rw [pending, shelf]
    exact flushing.order
  · rw [pending, shelf]
    exact flushing.base

theorem Logging.append (logging : Logging v db) (op : Operation) {logs : List (Nat × List Byte)} {c : Nat}
    {bytes contents : List Byte} (split : v.logs = logs ++ [(c, bytes)])
    (named : e.2.transactionLogFileName = genTransactionLogFileName c) {w : View}
    (newLogs : w.logs = logs ++ [(c, contents)]) : Logging w (db.appended op e contents) := by
  have counters : w.logs.map Prod.fst = v.logs.map Prod.fst := by rw [newLogs, split, List.map_append, List.map_append]; rfl
  have order := logging.order
  rw [split, List.map_append, List.map_singleton] at order
  obtain ⟨_, _, below⟩ := List.pairwise_append.mp order
  refine ⟨?_, fun n isLog content => ?_, counters ▸ logging.order, fun l member => ?_⟩
  · change db.memTableQueue.map _ = _
    rw [logging.names, split, newLogs, List.map_append, List.map_append]
    rfl
  · have old := logging.files n isLog content
    change (db.files.write _ _).read n = some content ↔ _
    rw [Directory.read_write, named, newLogs]
    by_cases same : n = genTransactionLogFileName c
    · rw [if_pos same]
      constructor
      · intro equal
        exact ⟨_, List.mem_append_right _ (List.mem_singleton_self _), same, (Option.some.inj equal).symm⟩
      · rintro ⟨l, member, equal, content⟩
        rcases List.mem_append.mp member with earlier | last
        · have less := below l.1 (List.mem_map_of_mem earlier) c (List.mem_singleton_self _)
          have counters := congrArg FileName.counter (same.symm.trans equal)
          simp only [genTransactionLogFileName] at counters
          omega
        · rw [List.mem_singleton.mp last] at content
          rw [content]
    · rw [if_neg same, old, split]
      constructor
      · rintro ⟨l, member, equal, content⟩
        rcases List.mem_append.mp member with earlier | last
        · exact ⟨l, List.mem_append_left _ earlier, equal, content⟩
        · rw [List.mem_singleton.mp last] at equal
          exact absurd equal same
      · rintro ⟨l, member, equal, content⟩
        rcases List.mem_append.mp member with earlier | last
        · exact ⟨l, List.mem_append_left _ earlier, equal, content⟩
        · rw [List.mem_singleton.mp last] at equal
          exact absurd equal same
  · obtain ⟨k, listed, same⟩ := List.mem_map.mp (counters ▸ List.mem_map_of_mem member : l.1 ∈ v.logs.map Prod.fst)
    rw [← same]
    exact logging.base k listed

/-- An operation goes to the last log and to the last MemTable. -/
theorem Inv.append (inv : Inv cfg permit v db) (fmt : LogFormat) (some : db.memTableQueue ≠ []) (op : Operation) :
    ∃ e contents memory table logs, v.memory = memory ++ [table] ∧ db.memTableQueue.getLast? = Option.some e ∧
      MemTableQueue.append fmt op db = .ok () (db.appended op e contents) ∧
      Inv cfg permit { v with logs := logs, memory := memory ++ [op.apply table] } (db.appended op e contents) := by
  obtain ⟨earlier, e, queue⟩ := (List.eq_nil_or_concat' _).resolve_left some
  have last : db.memTableQueue.getLast? = Option.some e := by rw [queue, List.getLast?_concat]
  have memory := inv.flushing.memory
  rw [queue, List.map_append, List.map_singleton] at memory
  have names := inv.logging.names
  rw [queue, List.map_append, List.map_singleton] at names
  obtain ⟨logs, l, split⟩ : ∃ logs l, v.logs = logs ++ [l] := by
    refine (List.eq_nil_or_concat' v.logs).resolve_left fun empty => ?_
    rw [empty] at names
    simp at names
  rw [split, List.map_append, List.map_singleton] at names
  obtain ⟨_, ends⟩ := List.append_inj' names rfl
  have named : e.2.transactionLogFileName = genTransactionLogFileName l.1 := (List.cons.inj ends).1
  have found : db.files.read e.2.transactionLogFileName = Option.some l.2 := by
    rw [named]
    exact (inv.logging.files _ rfl l.2).mpr ⟨l, by rw [split]; simp, rfl, rfl⟩
  have isLog : e.2.transactionLogFileName.extension = Option.some .txl := by rw [named]; rfl
  have other (n : FileName) (notLog : n.extension ≠ Option.some .txl) :
      (db.appended op e (l.2 ++ fmt.record op)).files.read n = db.files.read n := by
    change (db.files.write _ _).read n = _
    rw [Directory.read_write, if_neg]
    rintro rfl
    exact notLog isLog
  refine ⟨e, l.2 ++ fmt.record op, _, _, logs ++ [(l.1, l.2 ++ fmt.record op)], memory.symm, last, ?_, ?_, ?_, ?_, ?_⟩
  · simp only [MemTableQueue.append, DbM.current, DbM.file, DbM.change, appendFile, bind, EStateM.bind, last, found]
    rfl
  · refine inv.flushing.append queue op _ isLog rfl ?_ rfl rfl
    rw [← memory, List.dropLast_concat]
  · exact inv.logging.append op split named rfl
  · have shelved : Shelved v (db.appended op e (l.2 ++ fmt.record op)) :=
      inv.shelved.frame rfl fun n isSst => other n (by rw [isSst]; decide)
    exact ⟨shelved.queue, shelved.holds, shelved.named, shelved.listed, shelved.start⟩
  · have compacting : Compacting cfg permit v (db.appended op e (l.2 ++ fmt.record op)) :=
      inv.compacting.frame rfl rfl fun n isMerged => other n (by rw [isMerged]; decide)
    exact compacting.view rfl

end Append

section Launch

/-- The flush job of the last MemTable, and the state after its launch. -/
def launchedJob (db : ProjectDbImpl) (e : MemTable × TransactionLogWritter) : FlushJob :=
  ⟨e.1.table, genFlushInProgressSSTableFileName (genSSTableFileName (db.ssTableFileCounterBase + 1)), .running⟩

def launchedFlush (db : ProjectDbImpl) (e : MemTable × TransactionLogWritter) : ProjectDbImpl :=
  { db.emplaced with
    ssTableFileCounterBase := db.ssTableFileCounterBase + 1
    flushToDiskFutures := db.flushToDiskFutures ++ [db.launchedJob e] }

theorem Flushing.launch (flushing : Flushing v db) {earlier : List (MemTable × TransactionLogWritter)}
    {e : MemTable × TransactionLogWritter} (queue : db.memTableQueue = earlier ++ [e]) {w : View}
    (shelf : w.shelf = v.shelf) (memory : w.memory = v.memory ++ [.empty]) (retired : w.retired = v.retired)
    (taken : w.taken = v.taken) : Flushing w (db.launchedFlush e) := by
  obtain ⟨distinct, allocated, tables, retiredTables, sound⟩ := flushing.emplace
  have pending : pendingJobs w (db.launchedFlush e) = db.pendingJobs v ++ [db.launchedJob e] := by
    rw [pendingJobs, taken]
    exact List.drop_append_of_le_length flushing.early
  have counters : w.shelf.map counterOf ++ (pendingJobs w (db.launchedFlush e)).map (·.fileName.counter) =
      (v.shelf.map counterOf ++ (db.pendingJobs v).map (·.fileName.counter)) ++ [db.ssTableFileCounterBase + 1] := by
    rw [pending, shelf, List.map_append, List.map_singleton, List.append_assoc]
    rfl
  refine ⟨?_, ?_, ?_, distinct, allocated, memory ▸ tables, retired ▸ retiredTables, ?_, ?_, ?_, ?_⟩
  · have early := flushing.early
    simp only [launchedFlush, taken, List.length_append]
    omega
  · have consumed := flushing.taken
    have prior : (db.launchedFlush e).flushToDiskFutures.take w.taken = db.flushToDiskFutures.take v.taken := by
      rw [taken]
      exact List.take_append_of_le_length flushing.early
    rwa [prior]
  · have aligned := flushing.aligned
    rw [queue, List.dropLast_concat] at aligned
    simp only [launchedFlush, emplaced, List.map_append, List.map_singleton, List.dropLast_concat, aligned, queue,
      launchedJob]
  · rw [pending]
    intro job member
    rcases List.mem_append.mp member with old | new
    · exact sound job old
    · rw [List.mem_singleton.mp new]
      exact Or.inl rfl
  · rw [pending]
    intro job member
    rcases List.mem_append.mp member with old | new
    · exact flushing.named job old
    · rw [List.mem_singleton.mp new]
      rfl
  · rw [counters]
    refine List.pairwise_append.mpr ⟨flushing.order, List.pairwise_singleton _ _, fun c old d new => ?_⟩
    have below := flushing.base c old
    rw [List.mem_singleton.mp new]
    omega
  · rw [counters]
    intro c member
    change c ≤ db.ssTableFileCounterBase + 1
    rcases List.mem_append.mp member with old | new
    · exact (flushing.base c old).trans (Nat.le_succ _)
    · rw [List.mem_singleton.mp new]

/-- A MemTable that has become large is flushed, with an empty one behind it. -/
theorem Inv.launchFlush (inv : Inv cfg permit v db) (some : db.memTableQueue ≠ [])
    (room : db.transactionLogFileCounterBase + 1 < 2 ^ 32) (sstRoom : db.ssTableFileCounterBase + 1 < 2 ^ 32) :
    ProjectDbImpl.launchFlush cfg db = .ok () db ∨
      ∃ e, ProjectDbImpl.launchFlush cfg db = .ok () (db.launchedFlush e) ∧
        Inv cfg permit { v with
          logs := v.logs ++ [(db.transactionLogFileCounterBase, [])]
          memory := v.memory ++ [.empty] } (db.launchedFlush e) := by
  obtain ⟨earlier, e, queue⟩ := (List.eq_nil_or_concat' _).resolve_left some
  have last : db.memTableQueue.getLast? = Option.some e := by rw [queue, List.getLast?_concat]
  by_cases large : (db.tables e.1.table).needsFlushToDisk cfg.memTableApproximateMaxSizeInBytes = true
  · refine Or.inr ⟨e, ?_, ?_, ?_, ?_, ?_⟩
    · have wrapped : (db.emplaced.ssTableFileCounterBase + 1) % 2 ^ 32 = db.ssTableFileCounterBase + 1 :=
        Nat.mod_eq_of_lt sstRoom
      have emplaced : MemTableQueue.emplaceNew db = .ok () db.emplaced := inv.logging.emplaceNew room
      simp only [ProjectDbImpl.launchFlush, MemTableQueue.tryLaunchFlushToDisk, MemTableQueue.launchFlushToDisk,
        DbM.current, bind, EStateM.bind, last, if_pos large, emplaced, wrapped]
      rfl
    · exact inv.flushing.launch queue rfl rfl rfl rfl
    · have logging : Logging { v with
          logs := v.logs ++ [(db.transactionLogFileCounterBase, [])]
          memory := v.memory ++ [.empty] } db.emplaced := inv.logging.emplace rfl
      exact ⟨logging.names, logging.files, logging.order, logging.base⟩
    · have shelved : Shelved v db.emplaced := inv.shelved.frame rfl fun n isSst => emplaced_read (by rw [isSst]; decide)
      exact ⟨shelved.queue, shelved.holds, shelved.named, shelved.listed, shelved.start⟩
    · have compacting : Compacting cfg permit v (db.launchedFlush e) :=
        inv.compacting.frame rfl rfl fun n isMerged => emplaced_read (by rw [isMerged]; decide)
      exact compacting.view rfl
  · refine Or.inl ?_
    simp only [ProjectDbImpl.launchFlush, MemTableQueue.tryLaunchFlushToDisk, DbM.current, bind, EStateM.bind, last,
      if_neg large]
    rfl

end Launch
end ProjectDbImpl
end ProjectDb
