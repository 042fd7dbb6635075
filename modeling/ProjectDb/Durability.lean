import ProjectDb.Linearization
import ProjectDb.CrashRecovery

namespace ProjectDb
namespace ProjectDbImpl

/-- A call that has been completed, or that was under way when its process stopped. -/
inductive Request
  | completed (event : Event)
  | interrupted (call : Call)

/-- A map goes through the completed calls in order, answering as they were
answered, and through some of the interrupted ones in between. -/
inductive Performs (m : KeyMap) : List Request → KeyMap → Prop
  | start : Performs m [] m
  | completed {past : List Request} {n : KeyMap} (call : Call) : Performs m past n →
      Performs m (past ++ [.completed (call, .ok (n.answer call))]) (n.after call)
  | performed {past : List Request} {n : KeyMap} (call : Call) : Performs m past n →
      Performs m (past ++ [.interrupted call]) (n.after call)
  | lost {past : List Request} {n : KeyMap} (call : Call) : Performs m past n →
      Performs m (past ++ [.interrupted call]) n

variable {cfg : Config} {fmt : LogFormat} {permit wider : List SSTable → Nat → Prop} {v w : View} {s : Store}
  {first files : Files} {tables : List (Nat × SSTable)} {logs : List (Nat × List Byte)} {memory : List Table}
  {start db t : ProjectDbImpl} {past : List Request}

/-- The pending compaction of a database, if there is one, is permitted. -/
def CompactionPermitted (permit : List SSTable → Nat → Prop) (db : ProjectDbImpl) : Prop :=
  ∀ job, db.ssTableCompactionFuture = some job → ∀ xs, OnDisk db.files db.ssTableIndexQueue.queue xs →
    permit (xs.map Prod.snd) job.beginIt

/-- The directories that processes leave one after the other, each with its own settings,
and what they have been asked for: a process stops in a call while no compaction is being
installed, or closes the database, or stops before the database is open. -/
inductive Lives (fmt : LogFormat) (permit : Config → List SSTable → Nat → Prop) (first : Files) :
    Files → List Request → Prop
  | start : Lives fmt permit first first []
  | stopped {cfg : Config} {files : Files} {past : List Request} {start db t : ProjectDbImpl} {events : List Event}
      {call : Call} {rest : DbProg (Option StdString)} : Lives fmt permit first files past →
      Opened cfg fmt (permit cfg) files start → Session cfg fmt (permit cfg) start events db → db.Bounded →
      Prog.Reaches (Others cfg (permit cfg)) (call.prog cfg fmt) db rest t → ¬ t.CompactionTaken → t.Bounded →
      LogsLoadBack fmt t → Lives fmt permit first t.files (past ++ events.map .completed ++ [.interrupted call])
  | closed {cfg : Config} {files : Files} {past : List Request} {start db t : ProjectDbImpl} {events : List Event} :
      Lives fmt permit first files past → Opened cfg fmt (permit cfg) files start →
      Session cfg fmt (permit cfg) start events db → db.Bounded → CompactionPermitted (permit cfg) db →
      Prog.Reaches (Others cfg anyCompaction) (destroy cfg) db (.ret ()) t → LogsLoadBack fmt t →
      Lives fmt permit first t.files (past ++ events.map .completed)
  | opening {cfg : Config} {files : Files} {past : List Request} {now : UInt64} {ssTableBase transactionLogBase : Nat}
      {rest : DbProg Unit} {t : ProjectDbImpl} : Lives fmt permit first files past → ssTableBase < 2 ^ 31 →
      Prog.Reaches (Others cfg (permit cfg)) (init cfg fmt) (fresh files now ssTableBase transactionLogBase) rest t →
      Lives fmt permit first t.files past

theorem Performs.run {m n : KeyMap} {t : Store} {events : List Event} (performs : Performs m past n)
    (run : Store.Run cfg (Harmless cfg) s events t) (same : s.answer = n) :
    Performs m (past ++ events.map .completed) t.answer := by
  induction run with
  | start =>
    rw [List.map_nil, List.append_nil, same]
    exact performs
  | call call _ settles ih =>
    rw [List.map_append, ← List.append_assoc, Store.answer_called, settles.answer]
    exact ih.completed call

theorem Inv.weaken (inv : Inv cfg permit v db) (implies : ∀ tables window, permit tables window → wider tables window) :
    Inv cfg wider v db := by
  refine ⟨inv.flushing, inv.logging, inv.shelved, fun job launched => ?_⟩
  obtain ⟨begins, ends, positive, inside, state⟩ := inv.compacting job launched
  refine ⟨begins, ends, positive, inside, state.imp_right ?_⟩
  rintro ⟨I, ready, compacted, permitted⟩
  exact ⟨I, ready, compacted, implies _ _ permitted⟩

theorem answer_ofDisk (loads : LogsLoad fmt logs memory) :
    (Store.ofDisk tables logs memory).answer = stored tables memory := by
  have same : (Store.ofDisk tables logs memory).memTables.map Layer.current = memory := by
    have loaded := MemoryOf.ofDisk tables loads []
    exact loaded.memory.symm
  funext key
  rw [Store.answer, Store.layers, same, Store.ofDisk, List.map_map]
  rfl

theorem Shows.standsFor (shows : Shows cfg fmt permit s v t) (free : ¬ t.CompactionTaken) (bounded : t.Bounded)
    (back : LogsLoadBack fmt t) : StandsFor fmt t.files fun key => .ok (s.answer key) := by
  obtain ⟨inv, lined, _⟩ := shows.tables free
  have stands := (inv.weaken fun _ _ _ => trivial).standsFor lined bounded back
  have answers : ProjectDbImpl.answer cfg t = fun key => .ok (s.answer key) := funext (shows.answersAs free)
  rwa [answers] at stands

/-- Closing changes no answer, if the compaction that it finishes is harmless. -/
theorem Represents.closed (represents : Represents cfg fmt (Harmless cfg) s v db) (bounded : db.Bounded)
    (harmless : CompactionPermitted (Harmless cfg) db)
    (path : Prog.Reaches (Others cfg anyCompaction) (destroy cfg) db (.ret ()) t) (back : LogsLoadBack fmt t) :
    StandsFor fmt t.files fun key => .ok (s.answer key) := by
  have inv : Inv cfg anyCompaction v db := represents.inv.weaken fun _ _ _ => trivial
  obtain ⟨w, result, later, small⟩ := inv.closes represents.settled bounded path
  refine ⟨_, w.logs, w.memory, later.directory small, later.logsLoad back, fun key => ?_⟩
  have queue : (lookup (tablesOf w.queue) ⟨key⟩).bind Value.underlyingValue =
      (lookup (tablesOf v.queue) ⟨key⟩).bind Value.underlyingValue := by
    cases launched : db.ssTableCompactionFuture with
    | none => rw [result.kept (pendingStart_none.mpr launched)]
    | some job =>
      have tables := result.compacted job.beginIt (by rw [pendingStart, launched]; rfl)
      rw [tables, lookup_harmless (harmless job launched v.queue inv.onDisk), tablesOf_eq]
  have left : tablesOf w.shelf ++ w.memory = tablesOf w.queue ++ v.memory := by
    rw [View.shelf, tablesOf_append, List.append_assoc, result.moved, represents.settled.handed]
    rfl
  have before : s.answer key = (lookup (tablesOf v.queue ++ v.memory) ⟨key⟩).bind Value.underlyingValue := by
    rw [tablesOf_eq, represents.queue, represents.memory.memory]
    rfl
  refine congrArg Except.ok ?_
  rw [stored, shelf_tables, left, before, lookup_append, lookup_append]
  cases lookup v.memory ⟨key⟩ with
  | none => exact queue.symm
  | some value => rfl

theorem StandsFor.represents {m : KeyMap} (stands : StandsFor fmt files fun key => .ok (m key))
    (opened : Opened cfg fmt permit files start) :
    ∃ s v, Represents cfg fmt permit s v start ∧ s.answer = m := by
  obtain ⟨tables, logs, memory, disk, loads, same⟩ := stands
  obtain ⟨v, represents⟩ := opened.represents disk loads
  refine ⟨_, v, represents, ?_⟩
  rw [answer_ofDisk loads]
  exact funext fun key => (Except.ok.inj (same key)).symm

/-- A process that stops in a call leaves a directory that stands for the map
before that call or the map after it. -/
theorem StandsFor.interrupted {m origin : KeyMap} {events : List Event} {call : Call}
    {rest : DbProg (Option StdString)} (stands : StandsFor fmt files fun key => .ok (m key))
    (performs : Performs origin past m) (opened : Opened cfg fmt (Harmless cfg) files start)
    (session : Session cfg fmt (Harmless cfg) start events db) (bounded : db.Bounded)
    (path : Prog.Reaches (Others cfg (Harmless cfg)) (call.prog cfg fmt) db rest t) (free : ¬ t.CompactionTaken)
    (later : t.Bounded) (back : LogsLoadBack fmt t) :
    ∃ n, Performs origin (past ++ events.map .completed ++ [.interrupted call]) n ∧
      StandsFor fmt t.files fun key => .ok (n key) := by
  obtain ⟨s, v, represents, answers⟩ := stands.represents opened
  obtain ⟨x, w, run, now⟩ := session.storeRun represents
  have performed := performs.run run answers
  rcases (now.commits bounded call).reaches path with unwritten | written
  · obtain ⟨y, z, before, shows⟩ := unwritten.now
    exact ⟨_, performed.lost call, before.answer ▸ shows.standsFor free later back⟩
  · obtain ⟨y, z, after, shows⟩ := written.now
    exact ⟨_, performed.performed call, after.answer ▸ shows.standsFor free later back⟩

/-- Every directory that processes leave can be loaded, and stands for a map
that performs what they have been asked for. -/
theorem Lives.standsFor (lives : Lives fmt Harmless first files past) (disk : Disk first tables logs)
    (loads : LogsLoad fmt logs memory) :
    ∃ m, Performs (stored tables memory) past m ∧ StandsFor fmt files fun key => .ok (m key) := by
  induction lives with
  | start => exact ⟨_, .start, tables, logs, memory, disk, loads, fun _ => rfl⟩
  | stopped _ opened session bounded path free later back ih =>
    obtain ⟨m, performs, stands⟩ := ih
    exact stands.interrupted performs opened session bounded path free later back
  | closed _ opened session bounded harmless path back ih =>
    obtain ⟨m, performs, stands⟩ := ih
    obtain ⟨s, v, represents, answers⟩ := stands.represents opened
    obtain ⟨x, w, run, now⟩ := session.storeRun represents
    exact ⟨_, performs.run run answers, now.closed bounded harmless path back⟩
  | @opening cfg files past now ssTableBase transactionLogBase rest t _ low path ih =>
    obtain ⟨m, performs, tables', logs', memory', disk', loads', same⟩ := ih
    have still := ((init_safe disk' loads' now transactionLogBase low.le).reaches path).now
    exact ⟨m, performs, tables', logs', memory', still, loads', same⟩

/-- Durable linearizability: whatever processes have come and gone, each with its
own settings, a database that is opened on the directory they have left answers
as a map that has performed every completed call, in order and with the answer
it got, and each interrupted call in its place or not at all. -/
theorem durable_linearizability (disk : Disk first tables logs) (loads : LogsLoad fmt logs memory)
    (lives : Lives fmt Harmless first files past) (now : UInt64) {ssTableBase : Nat} (low : ssTableBase < 2 ^ 31)
    (transactionLogBase : Nat) :
    (∃ recovered, (init cfg fmt).run (fresh files now ssTableBase transactionLogBase) = .ok () recovered) ∧
    (∀ e t, ¬ Prog.Reaches (Others cfg (Harmless cfg)) (init cfg fmt)
      (fresh files now ssTableBase transactionLogBase) (.throw e) t) ∧
    ∃ m, Performs (stored tables memory) past m ∧ ∀ recovered, Prog.Reaches (Others cfg (Harmless cfg)) (init cfg fmt)
      (fresh files now ssTableBase transactionLogBase) (.ret ()) recovered → AnswersAs cfg recovered m := by
  obtain ⟨m, performs, tables', logs', memory', disk', loads', same⟩ := lives.standsFor disk loads
  have safe : (init cfg fmt).Safe (Others cfg (Harmless cfg)) (fun t => Disk t.files tables' logs') (fun _ => False)
      (fun _ => OpenedOn cfg (Harmless cfg) tables' logs' memory') (fresh files now ssTableBase transactionLogBase) :=
    init_safe disk' loads' now transactionLogBase low.le
  refine ⟨init_returns disk' loads' now low.le transactionLogBase, fun e t path => (safe.reaches path).2, m, performs,
    fun recovered path key => ?_⟩
  obtain ⟨xs, rfl, inv⟩ := (safe.reaches path).returned
  refine Eq.trans ?_ (same key).symm
  rw [inv.answer, View.answer, stored, List.map_map]
  rfl

def harmlessEvents : List Event :=
  [(.set sampleKey oldString, .ok none), (.set otherKey newString, .ok none), (.remove sampleKey, .ok none),
    (.set otherKey oldString, .ok none), (.get sampleKey, .ok none)]

/-- A script, the destructor, `init` on the files left, and an instant of a call after it. -/
def playProcesses (cfg : Config) (fmt : LogFormat) (moves : List Move) (call : Call) (actions : Nat) :
    Option ((List Event × ProjectDbImpl) × ProjectDbImpl × ProjectDbImpl × ProjectDbImpl) := do
  let (events, db) ← play cfg fmt (opened cfg fmt) moves
  let (_, closed) ← ((destroy cfg).run db).ok?
  let (_, reopened) ← ((init cfg fmt).run (fresh closed.files 0 0 0)).ok?
  let stopped := (Prog.advance actions (call.prog cfg fmt) reopened).2
  if ((db.Bounded ∧ LogsLoadBack fmt closed) ∧ reopened.Bounded) ∧
      stopped.ssTableCompactionFuture.isNone ∧ stopped.Bounded ∧ LogsLoadBack fmt stopped then
    pure ((events, db), closed, reopened, stopped)
  else none

/-- A process is closed while a compaction is running, and the next one stops
while a key of the tables is removed: the record of the remove is in the log already. -/
theorem harmlessScript_lives : ∃ db closed reopened t,
    playProcesses sessionConfig transactionLog (harmlessScript.take 9) (.remove otherKey) 5 =
        some ((harmlessEvents, db), closed, reopened, t) ∧
      (db.ssTableIndexQueue.queue.length, reopened.ssTableIndexQueue.queue.length) = (4, 2) ∧
      Lives transactionLog Harmless ∅ t.files (harmlessEvents.map .completed ++ [.interrupted (.remove otherKey)]) := by
  have possible : (playProcesses sessionConfig transactionLog (harmlessScript.take 9) (.remove otherKey) 5).bind
      (fun states =>
        if (states.1.2.ssTableIndexQueue.queue.length, states.2.2.1.ssTableIndexQueue.queue.length) = (4, 2) ∧
            states.1.2.ssTableCompactionFuture.all (fun job =>
              decide (Harmless sessionConfig (ssTablesOnDisk sessionConfig states.1.2) job.beginIt)) = true then
          some states.1.1
        else none) = some harmlessEvents := by decide +kernel
  obtain ⟨⟨⟨events, db⟩, closed, reopened, t⟩, played, known⟩ := Option.bind_eq_some_iff.mp possible
  split_ifs at known with seen
  obtain ⟨lengths, harmless⟩ := seen
  obtain rfl : events = harmlessEvents := Option.some.inj known
  refine ⟨db, closed, reopened, t, played, lengths, ?_⟩
  simp only [playProcesses, Option.bind_eq_bind, Option.bind_eq_some_iff, Prod.exists, EStateM.Result.ok?_eq_some] at played
  obtain ⟨events, db, script, _, closed, close, _, reopened, again, last⟩ := played
  split_ifs at last with all
  cases last
  obtain ⟨⟨⟨bounded, back⟩, low⟩, idle, later, loads⟩ := all
  have session : Session sessionConfig transactionLog (Harmless sessionConfig) (opened sessionConfig transactionLog)
      harmlessEvents db := play_session .opened (by decide +kernel) script
  have permitted : CompactionPermitted (Harmless sessionConfig) db := by
    intro job launched xs onDisk
    rw [← ssTablesOnDisk_eq onDisk]
    exact of_decide_eq_true ((Option.all_eq_true _ _).mp harmless job launched)
  have lives : Lives transactionLog Harmless ∅ closed.files ([] ++ harmlessEvents.map .completed) :=
    .closed .start opened_opened session bounded permitted (Prog.reaches_returns close) back
  have stopped := lives.stopped ⟨0, 0, 0, by decide, by decide, Prog.reaches_returns again⟩ .opened low
    (Prog.reaches_advance _ 5 ((Call.remove otherKey).prog sessionConfig transactionLog) reopened) (not_compactionTaken idle)
    later loads
  rwa [List.nil_append, List.map_nil, List.append_nil] at stopped

theorem durable_linearizability_sample : ∃ db closed reopened t recovered m,
    playProcesses sessionConfig transactionLog (harmlessScript.take 9) (.remove otherKey) 5 =
        some ((harmlessEvents, db), closed, reopened, t) ∧
      (init sessionConfig transactionLog).run (fresh t.files 0 0 0) = .ok () recovered ∧
      Performs (stored [] []) (harmlessEvents.map .completed ++ [.interrupted (.remove otherKey)]) m ∧
      AnswersAs sessionConfig recovered m := by
  obtain ⟨db, closed, reopened, t, played, _, lives⟩ := harmlessScript_lives
  obtain ⟨⟨recovered, run⟩, _, m, performs, answers⟩ :=
    durable_linearizability disk_empty .nil lives 0 (show 0 < 2 ^ 31 by decide) 0
  exact ⟨db, closed, reopened, t, recovered, m, played, run, performs, answers recovered (Prog.reaches_returns run)⟩

end ProjectDbImpl
end ProjectDb
