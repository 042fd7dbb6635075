import ProjectDb.SessionAnswers

namespace ProjectDb
namespace ProjectDbImpl

variable {cfg : Config} {fmt : LogFormat} {permit : List SSTable → Nat → Prop} {v : View} {n : Nat}
  {start db t u w : ProjectDbImpl}

/-- The states that a database passes from some state on: between two calls, and
between two actions of a call. -/
def Passes (cfg : Config) (fmt : LogFormat) (permit : List SSTable → Nat → Prop) (start t : ProjectDbImpl) : Prop :=
  ∃ events db, Session cfg fmt permit start events db ∧ (t = db ∨
    ∃ call q, db.Bounded ∧ Prog.Reaches (Others cfg permit) (Call.prog cfg fmt call) db q t)

/-- All that lasts through the calls lasts through a session. -/
theorem Passes.lasting (passes : Passes cfg fmt permit start t) (inv : Inv cfg permit v start) (settled : v.Settled) :
    Lasting cfg permit v.retired t := by
  obtain ⟨events, db, session, rfl | ⟨call, q, bounded, path⟩⟩ := passes
  · obtain ⟨w, now, still, same⟩ := session.inv inv settled
    rw [← same]
    refine ⟨fun r member => (now.flushing.retired r member).2.1, ⟨w, now.flushing⟩, fun _ => ⟨w, now, still.lined⟩⟩
  · obtain ⟨w, now, still, same⟩ := session.inv inv settled
    rw [← same]
    exact (((now.ready bounded).call still fmt call).reaches path).now

/-- The MemTables that are being flushed, with their contents. -/
def pendingTables (db : ProjectDbImpl) : List (Nat × Table) :=
  db.flushToDiskFutures.map fun job => (job.table, db.tables job.table)

/-- A MemTable that is being flushed is not the last one. -/
theorem Flushing.notLast (flushing : Flushing v db) {job : FlushJob} (member : job ∈ db.flushToDiskFutures)
    {e : MemTable × TransactionLogWritter} (last : db.memTableQueue.getLast? = some e) : e.1.table ≠ job.table := by
  obtain ⟨front, split⟩ := List.getLast?_eq_some_iff.mp last
  have listed := (flushing.flushed_allocated member).1
  have distinct := flushing.distinct
  rw [split, List.dropLast_concat] at listed
  rw [split, List.map_append, List.map_singleton] at distinct
  exact fun same => (List.nodup_append.mp distinct).2.2 _ listed _ (List.mem_singleton_self _) same.symm

/-- The MemTables that are being flushed may be taken for retired. -/
theorem Inv.retire (inv : Inv cfg permit v db) : Inv cfg permit { v with retired := db.pendingTables } db := by
  obtain ⟨flushing, ⟨names, files, order, base⟩, ⟨queue, holds, named, listed, start⟩, compacting⟩ := inv
  refine ⟨?_, ⟨names, files, order, base⟩, ⟨queue, holds, named, listed, start⟩, compacting.view rfl⟩
  refine ⟨flushing.early, flushing.taken, flushing.aligned, flushing.distinct, flushing.allocated, flushing.memory,
    fun r member => ?_, flushing.sound, flushing.named, flushing.order, flushing.base⟩
  obtain ⟨job, pending, rfl⟩ := List.mem_map.mp member
  exact ⟨(flushing.flushed_allocated pending).2, rfl, fun e last => flushing.notLast pending last⟩

section Loop

/-- The states at the head of the loop of `checkFlushToDiskFutures`, in a call
that is made in a given state. -/
inductive Loop (cfg : Config) (permit : List SSTable → Nat → Prop) (db : ProjectDbImpl) : ProjectDbImpl → Prop
  | enter {u : ProjectDbImpl} :
      Prog.Reaches (Others cfg permit) (checkSSTableCompactionFuture cfg) db (.ret false) u → Loop cfg permit db u
  | pass {u w : ProjectDbImpl} : Loop cfg permit db u →
      Prog.Reaches (Others cfg permit) ProjectDbImpl.pass u (.ret true) w → Loop cfg permit db w

/-- At the head of the loop no compaction is running. -/
theorem Loop.ready (loop : Loop cfg permit db u) (ready : Ready cfg permit v n db) (settled : v.Settled) :
    ∃ w, Ready cfg permit w n u ∧ w.Settled ∧ u.ssTableCompactionFuture = none := by
  induction loop with
  | enter path =>
    have safe : (checkSSTableCompactionFuture cfg).Safe (Others cfg permit) (fun _ => True) (fun _ => False)
        (Checked cfg permit v n db) db :=
      ready.checkSSTableCompactionFuture (fun _ _ _ => trivial) fun _ _ _ => trivial
    cases (safe.reaches path).returned with
    | absent _ now idle => exact ⟨v, now, settled, idle⟩
    | installed _ _ _ _ now idle => exact ⟨_, now, ⟨settled.handed, settled.taken⟩, idle⟩
  | pass _ path ih =>
    obtain ⟨w, now, still, idle⟩ := ih
    cases ((now.pass still idle).reaches path).returned with
    | handed _ later idle => exact ⟨_, later, ⟨rfl, rfl⟩, idle⟩

/-- The front MemTable has become the newest SSTable, and no answer has changed. -/
structure HandedOver (cfg : Config) (u w : ProjectDbImpl) : Prop where
  moved : ∃ index s e, w.ssTableIndexQueue.queue = u.ssTableIndexQueue.queue ++ [index] ∧ index.Holds w.files s ∧
    u.memTableQueue = e :: w.memTableQueue ∧ s.table = u.tables e.1.table
  answers : ∀ key, answer cfg w key = answer cfg u key

/-- A pass of the loop that does not end it. -/
theorem Ready.handedOver (ready : Ready cfg permit v n u) (settled : v.Settled) (idle : u.ssTableCompactionFuture = none)
    (path : Prog.Reaches (Others cfg permit) ProjectDbImpl.pass u (.ret true) w) : HandedOver cfg u w := by
  cases ((ready.pass settled idle).reaches path).returned with
  | @handed _ x memory front later idle queue =>
    have contents := ready.inv.flushing.memory
    rw [front] at contents
    obtain ⟨e, rest, split, table, _⟩ := List.map_eq_cons_iff.mp contents
    refine ⟨⟨x.1, x.2, e, ?_, ?_, ?_, table.symm⟩, fun key => ?_⟩
    · rw [← later.inv.shelved.queue, ← ready.inv.shelved.queue, List.map_append, List.map_singleton]
    · exact later.inv.shelved.holds x (by simp [View.shelf])
    · rw [queue, split, List.tail_cons]
    · rw [later.inv.answer, ready.inv.answer, View.answer, View.answer, View.layers, View.layers, front,
        tablesOf_append, List.append_assoc]
      rfl

theorem Ready.drained {futures : Nat} (ready : Ready cfg permit v n u) (settled : v.Settled)
    (idle : u.ssTableCompactionFuture = none)
    (path : Prog.Reaches (Others cfg permit) (ProjectDbImpl.drain futures) u (.ret ()) w) (key : StdString) :
    answer cfg w key = answer cfg u key := by
  obtain ⟨x, drained, later, _⟩ := ((ready.drain futures settled idle).reaches path).returned
  rw [later.inv.answer, ready.inv.answer, View.answer, View.answer, drained.layers]

end Loop

section Pipeline
variable {files : Files} {tables : List (Nat × SSTable)} {logs : List (Nat × List Byte)}

/-- The pending flushes are at all times those of the MemTables before the last
one, which are not written any more, and the loop hands them over in order. -/
theorem flush_pipeline (disk : Disk files tables logs) (opened : Opened cfg fmt anyCompaction files start) :
    (∀ t, Passes cfg fmt anyCompaction start t →
      t.flushToDiskFutures.map (·.table) = t.memTableQueue.dropLast.map (·.1.table) ∧
        (t.memTableQueue.map (·.1.table)).Nodup) ∧
    ∀ events db, Session cfg fmt anyCompaction start events db →
      (∀ job ∈ db.flushToDiskFutures, db.Sound job ∧
        ∀ t, Passes cfg fmt anyCompaction db t → t.tables job.table = db.tables job.table) ∧
      (db.Bounded → ∀ u, Loop cfg anyCompaction db u →
        (∀ w, Prog.Reaches (Others cfg anyCompaction) pass u (.ret true) w → HandedOver cfg u w) ∧
        ∀ futures w, Prog.Reaches (Others cfg anyCompaction) (drain futures) u (.ret ()) w →
          ∀ key, answer cfg w key = answer cfg u key) := by
  obtain ⟨memory, loads⟩ := opened.loads disk
  obtain ⟨xs, _, inv⟩ := opened.on disk loads
  have settled := openedView_settled xs logs memory
  refine ⟨fun t passes => ?_, fun events db session => ?_⟩
  · obtain ⟨v, flushing⟩ := (passes.lasting inv settled).flushing
    exact ⟨flushing.aligned, flushing.distinct⟩
  · obtain ⟨v, now, still, _⟩ := session.inv inv settled
    refine ⟨fun job member => ⟨?_, fun t passes => ?_⟩, fun bounded u loop => ?_⟩
    · refine now.flushing.sound job ?_
      rwa [pendingJobs, still.taken, List.drop_zero]
    · have lasting := passes.lasting now.retire ⟨still.handed, still.taken⟩
      exact lasting.retired _ (List.mem_map_of_mem member)
    · obtain ⟨w, ready, same, idle⟩ := loop.ready (now.ready bounded) still
      exact ⟨fun x path => ready.handedOver same idle path, fun futures x path key => ready.drained same idle path key⟩

/-- Two writes, of which the flush of the second one finishes first, a check for
a compaction and two passes of the loop: the states before, between and after
the passes. -/
def playPasses (cfg : Config) (fmt : LogFormat) : Option (ProjectDbImpl × ProjectDbImpl × ProjectDbImpl) := do
  let (_, db) ← play cfg fmt (opened cfg fmt)
    [.call (.set sampleKey oldString), .call (.set otherKey newString), .flush 1, .flush 0]
  let (running, u) ← ((checkSSTableCompactionFuture cfg).run db).ok?
  let (first, w) ← (pass.run u).ok?
  let (second, x) ← (pass.run w).ok?
  if db.Bounded ∧ !running ∧ first ∧ second then
    pure (u, w, x)
  else none

theorem flush_pipeline_sample : ∃ u w x, playPasses sessionConfig transactionLog = some (u, w, x) ∧
    (u.memTableQueue.length, x.memTableQueue.length, x.ssTableIndexQueue.queue.length) = (3, 1, 2) ∧
      HandedOver sessionConfig u w ∧ HandedOver sessionConfig w x := by
  have possible : (playPasses sessionConfig transactionLog).map (fun states =>
      (states.1.memTableQueue.length, states.2.2.memTableQueue.length, states.2.2.ssTableIndexQueue.queue.length)) =
        some (3, 1, 2) := by decide +kernel
  obtain ⟨⟨u, w, x⟩, played, sizes⟩ := Option.map_eq_some_iff.mp possible
  refine ⟨u, w, x, played, sizes, ?_⟩
  simp only [playPasses, Option.bind_eq_bind, Option.bind_eq_some_iff, Prod.exists, EStateM.Result.ok?_eq_some] at played
  obtain ⟨events, db, script, running, _, check, first, _, passed, second, _, again, last⟩ := played
  split_ifs at last with all
  obtain ⟨bounded, still, ended, endedToo⟩ := all
  cases last
  have session : Session sessionConfig transactionLog anyCompaction (opened sessionConfig transactionLog)
      events db := play_session .opened (permitted_of fun _ _ _ => trivial) script
  simp only [Bool.not_eq_true'] at still
  subst still ended endedToo
  obtain ⟨_, loop⟩ := (flush_pipeline disk_empty opened_opened).2 events db session
  have entry : Loop sessionConfig anyCompaction db u := .enter (Prog.reaches_returns check)
  have oldest : Prog.Reaches (Others sessionConfig anyCompaction) pass u (.ret true) w := Prog.reaches_returns passed
  have next : Prog.Reaches (Others sessionConfig anyCompaction) pass w (.ret true) x := Prog.reaches_returns again
  exact ⟨(loop bounded u entry).1 w oldest, (loop bounded w (entry.pass oldest)).1 x next⟩

end Pipeline

end ProjectDbImpl
end ProjectDb
