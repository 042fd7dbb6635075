import ProjectDb.Closing
import ProjectDb.SessionAnswers

namespace ProjectDb
namespace ProjectDbImpl

variable {cfg : Config} {fmt : LogFormat} {permit : List SSTable → Nat → Prop} {v w : View}
  {start db closed reopened t : ProjectDbImpl}

/-- Every log loads back to the MemTable that it backs. -/
def LogsLoadBack (fmt : LogFormat) (t : ProjectDbImpl) : Prop :=
  ∀ e ∈ t.memTableQueue,
    fmt.load e.2.transactionLogFileName (getFileStream t.files e.2.transactionLogFileName) = .ok (t.tables e.1.table)

theorem Logging.loads (logging : Logging v t) (flushing : Flushing v t) (back : LogsLoadBack fmt t) :
    LogsLoad fmt v.logs v.memory := by
  have stored : ∀ l ∈ v.logs, t.files.read (genTransactionLogFileName l.1) = some l.2 := fun l member =>
    (logging.files _ rfl _).mpr ⟨l, member, rfl, rfl⟩
  have named : List.Forall₂ (fun l e => genTransactionLogFileName l.1 = e.2.transactionLogFileName) v.logs
      t.memTableQueue := by
    have same := logging.names.symm
    rwa [← List.forall₂_eq_eq_eq, List.forall₂_map_left_iff, List.forall₂_map_right_iff] at same
  have loads := (List.forall₂_and_left t.memTableQueue v.logs).mpr ⟨back, named.flip⟩
  have both := (List.forall₂_and_left v.logs t.memTableQueue).mpr ⟨stored, loads.flip⟩
  rw [LogsLoad, ← flushing.memory, List.forall₂_map_right_iff]
  refine both.imp fun l e known => ?_
  obtain ⟨found, load, same⟩ := known
  rw [← same, getFileStream, found] at load
  exact load

theorem Inv.logsLoad (inv : Inv cfg permit v t) (back : LogsLoadBack fmt t) : LogsLoad fmt v.logs v.memory :=
  inv.logging.loads inv.flushing back

/-- The directory of an open database, as `init` reads it. -/
theorem Inv.directory (inv : Inv cfg permit v t) (bounded : t.Bounded) :
    Disk t.files (v.shelf.map fun x => (counterOf x, x.2)) v.logs := by
  refine inv.disk (fun x member => ?_) fun l member => ?_
  · have below := inv.flushing.base (counterOf x) (List.mem_append_left _ (List.mem_map_of_mem member))
    exact below.trans_lt bounded.1
  · exact (inv.logging.base l member).trans bounded.2

/-- The same tables in the same order: those of the queue, with the pending
compaction installed, then those of the pending flushes, and the last MemTable. -/
structure Reopened (cfg : Config) (db closed reopened : ProjectDbImpl) : Prop where
  queue : ∃ before after again, OnDisk db.files db.ssTableIndexQueue.queue before ∧
    OnDisk closed.files closed.ssTableIndexQueue.queue after ∧
    OnDisk reopened.files reopened.ssTableIndexQueue.queue again ∧
    (db.ssTableCompactionFuture = none → tablesOf after = tablesOf before) ∧
    (∀ job, db.ssTableCompactionFuture = some job → tablesOf after =
      (compactionGroups cfg (before.map Prod.snd) job.beginIt (job.endIt - job.beginIt)).map
        fun group => (mergeGroup group).table) ∧
    tablesOf again = tablesOf after ++ db.memTableQueue.dropLast.map fun e => db.tables e.1.table
  memTables : reopened.memTableQueue.map (fun e => reopened.tables e.1.table) =
    db.memTableQueue.getLast?.toList.map fun e => db.tables e.1.table

theorem dropLast_eq_of_append {α : Type} {front back whole : List α} (split : front ++ back = whole)
    (last : back.getLast? = whole.getLast?) (few : back.length ≤ 1) :
    front = whole.dropLast ∧ back = whole.getLast?.toList := by
  rcases back with _ | ⟨x, _ | ⟨y, rest⟩⟩
  · have empty : whole = [] := List.getLast?_eq_none_iff.mp last.symm
    subst empty
    simp only [List.append_nil] at split
    exact ⟨split, rfl⟩
  · subst split
    simp
  · simp only [List.length_cons] at few
    omega

theorem OpenedOn.onDisk {tables : List (Nat × SSTable)} {logs : List (Nat × List Byte)} {memory : List Table}
    (opened : OpenedOn cfg permit tables logs memory db) :
    (∃ xs, OnDisk db.files db.ssTableIndexQueue.queue xs ∧ tablesOf xs = tables.map fun t => t.2.table) ∧
      db.memTableQueue.map (fun e => db.tables e.1.table) = memory := by
  obtain ⟨xs, same, inv⟩ := opened
  refine ⟨⟨xs, inv.onDisk, ?_⟩, inv.flushing.memory⟩
  rw [← same, List.map_map]
  rfl

/-- A counter that is below its bound has room for as many again. -/
theorem Inv.roomy (inv : Inv cfg permit v db) (bounded : db.Bounded) : Ready cfg permit v (2 ^ 31) db := by
  obtain ⟨sst, txl⟩ := bounded
  exact ⟨inv, by omega, by omega⟩

theorem Inv.closes (inv : Inv cfg anyCompaction v db) (settled : v.Settled) (bounded : db.Bounded)
    (path : Prog.Reaches (Others cfg anyCompaction) (destroy cfg) db (.ret ()) closed) :
    ∃ w, Closed cfg v w db.pendingStart ∧ Inv cfg anyCompaction w closed ∧ closed.Bounded := by
  obtain ⟨w, result, later⟩ := (((inv.roomy bounded).destroy settled).reaches path).returned
  have sst := later.sstRoom
  have txl := later.txlRoom
  exact ⟨w, result, later.inv, by omega, by omega⟩

section Reopen
variable {files : Files} {tables : List (Nat × SSTable)} {logs : List (Nat × List Byte)} {events : List Event}

/-- Closing a database and opening its directory again. -/
theorem close_reopen (disk : Disk files tables logs) (opened : Opened cfg fmt anyCompaction files start)
    (session : Session cfg fmt anyCompaction start events db) (bounded : db.Bounded) :
    (∀ e t, Prog.Reaches (Others cfg anyCompaction) (destroy cfg) db (.throw e) t → CloseFailure cfg e) ∧
    ∀ closed, Prog.Reaches (Others cfg anyCompaction) (destroy cfg) db (.ret ()) closed → LogsLoadBack fmt closed →
      (∀ now ssTableBase transactionLogBase, ssTableBase < 2 ^ 31 → ∃ reopened,
        (init cfg fmt).run (fresh closed.files now ssTableBase transactionLogBase) = .ok () reopened) ∧
      ∀ reopened, Opened cfg fmt anyCompaction closed.files reopened → Reopened cfg db closed reopened := by
  obtain ⟨memory, loads⟩ := opened.loads disk
  obtain ⟨xs, _, inv⟩ := opened.on disk loads
  obtain ⟨v, now, settled, _⟩ := session.inv inv (openedView_settled xs logs memory)
  refine ⟨fun e t path => (((now.roomy bounded).destroy settled).reaches path).2, fun closed path back => ?_⟩
  obtain ⟨w, result, later, small⟩ := now.closes settled bounded path
  have left := later.directory small
  have reloads := later.logsLoad back
  refine ⟨fun time base logBase low => init_returns left reloads time low.le logBase,
    fun reopened again => ?_⟩
  obtain ⟨⟨ys, onDisk, same⟩, memTables⟩ := (again.on left reloads).onDisk
  have moved : tablesOf w.handed ++ w.memory = v.memory := by
    rw [result.moved, settled.handed]
    rfl
  obtain ⟨handed, last⟩ := dropLast_eq_of_append moved result.last result.few
  have contents := now.flushing.memory
  refine ⟨⟨v.queue, w.queue, ys, now.onDisk, later.onDisk, onDisk, fun idle => result.kept (pendingStart_none.mpr idle),
    fun job launched => ?_, ?_⟩, ?_⟩
  · obtain ⟨_, ends, _⟩ := now.compacting job launched
    have wide : job.endIt - job.beginIt = cfg.numSSTableToCompact.toNat + 1 := by omega
    rw [wide]
    exact result.compacted job.beginIt (by rw [pendingStart, launched]; rfl)
  · rw [same, List.map_map, List.map_dropLast, contents]
    change tablesOf w.shelf = _
    rw [View.shelf, tablesOf_append, handed]
  · rw [memTables, last, ← contents, List.getLast?_map]
    cases db.memTableQueue.getLast? <;> rfl

/-- Two SSTables are being compacted, the flush of a third MemTable is pending,
and there is one more MemTable. -/
def closeScript : List Move :=
  [.call (.remove sampleKey), .call (.remove otherKey), .flush 0, .call (.remove sampleKey), .call (.remove otherKey),
    .flush 0, .call (.get sampleKey), .call (.remove sampleKey), .call (.remove otherKey), .call (.remove sampleKey)]

def closeConfig : Config := { Config.default with memTableApproximateMaxSizeInBytes := 6, numSSTableToCompact := 1 }

instance (fmt : LogFormat) (t : ProjectDbImpl) : Decidable (LogsLoadBack fmt t) :=
  inferInstanceAs (Decidable (∀ e ∈ t.memTableQueue, _))

/-- A script, the destructor, and `init` on the files left: the states in between. -/
def playClose (cfg : Config) (fmt : LogFormat) (moves : List Move) :
    Option (ProjectDbImpl × ProjectDbImpl × ProjectDbImpl) := do
  let (_, db) ← play cfg fmt (opened cfg fmt) moves
  let (_, closed) ← ((destroy cfg).run db).ok?
  let (_, reopened) ← ((init cfg fmt).run (fresh closed.files 0 0 0)).ok?
  if db.Bounded ∧ LogsLoadBack fmt closed then pure (db, closed, reopened) else none

theorem close_reopen_sample : ∃ db closed reopened,
    playClose closeConfig transactionLog closeScript = some (db, closed, reopened) ∧
      (db.ssTableCompactionFuture.isSome ∧ db.flushToDiskFutures.length = 1 ∧ db.memTableQueue.length = 2) ∧
      Reopened closeConfig db closed reopened := by
  have possible : (playClose closeConfig transactionLog closeScript).map (fun states =>
      (states.1.ssTableCompactionFuture.isSome, states.1.flushToDiskFutures.length, states.1.memTableQueue.length)) =
        some (true, 1, 2) := by decide +kernel
  obtain ⟨⟨db, closed, reopened⟩, played, sizes⟩ := Option.map_eq_some_iff.mp possible
  simp only [Prod.mk.injEq] at sizes
  refine ⟨db, closed, reopened, played, sizes, ?_⟩
  simp only [playClose, Option.bind_eq_bind, Option.bind_eq_some_iff, Prod.exists, EStateM.Result.ok?_eq_some] at played
  obtain ⟨events, db, script, _, closed, close, _, reopened, again, last⟩ := played
  split_ifs at last with all
  cases last
  have session : Session closeConfig transactionLog anyCompaction (ProjectDbImpl.opened closeConfig transactionLog)
      events db := play_session .opened (permitted_of fun _ _ _ => trivial) script
  obtain ⟨_, reopens⟩ :=
    (close_reopen disk_empty opened_opened session all.1).2 closed (Prog.reaches_returns close) all.2
  exact reopens reopened ⟨0, 0, 0, by decide, by decide, Prog.reaches_returns again⟩

end Reopen

end ProjectDbImpl
end ProjectDb
