import ProjectDb.OpeningSteps
import ProjectDb.Durability

namespace ProjectDb

namespace Future
variable {α : Type}

def isRunning : Future α → Bool
  | running => true
  | _ => false

theorem isRunning_iff (future : Future α) : future.isRunning = true ↔ future = .running := by
  cases future <;> simp [isRunning]

end Future

namespace ProjectDbImpl

variable {cfg : Config} {fmt : LogFormat} {permit : List SSTable → Nat → Prop} {first files : Files}
  {tables : List (Nat × SSTable)} {logs : List (Nat × List Byte)} {memory : List Table} {events : List Event}
  {start start' db db' s t t' : ProjectDbImpl} {call : Call} {rest : DbProg (Option StdString)} {past : List Request}

section Opening

/-- What `init` makes of a directory in many actions, among jobs that write bit by bit. -/
def OpenedStepwise (cfg : Config) (fmt : LogFormat) (permit : List SSTable → Nat → Prop) (files : Files)
    (db : ProjectDbImpl) : Prop :=
  ∃ now ssTableBase transactionLogBase, ssTableBase < 2 ^ 31 ∧ transactionLogBase < 2 ^ 31 ∧
    Prog.Reaches (Working cfg permit) (initStepwise cfg fmt) (fresh files now ssTableBase transactionLogBase) (.ret ()) db

theorem unlaunched_fresh (files : Files) (now : UInt64) (ssTableBase transactionLogBase : Nat) :
    Unlaunched files (fresh files now ssTableBase transactionLogBase) :=
  ⟨⟨rfl, fun _ member => absurd member List.not_mem_nil, fun _ _ => rfl⟩, rfl⟩

theorem WorkingSession.jobs (session : WorkingSession cfg fmt permit start events s)
    (steps : Relation.ReflTransGen (Working cfg permit) s t) : WorkingSession cfg fmt permit start events t := by
  induction steps with
  | refl => exact session
  | tail _ step ih => exact ih.job step

/-- A session that goes on from where jobs have got. -/
theorem WorkingSession.behind (first : WorkingSession cfg fmt permit start [] start')
    (session : WorkingSession cfg fmt permit start' events db) : WorkingSession cfg fmt permit start events db := by
  induction session with
  | opened => exact first
  | job _ step ih => exact ih.job step
  | returned _ bounded path ih => exact ih.returned bounded path
  | threw _ bounded path ih => exact ih.threw bounded path

/-- Opening in many actions is opening in one, with steps of jobs behind it. -/
theorem OpenedStepwise.opened (opened : OpenedStepwise cfg fmt permit files start') :
    ∃ start, Opened cfg fmt permit files start ∧ WorkingSession cfg fmt permit start [] start' := by
  obtain ⟨now, ssTableBase, transactionLogBase, sstLow, txlLow, path⟩ := opened
  obtain ⟨start, alone, _, steps⟩ :=
    (initStepwise_outruns (unlaunched_fresh files now ssTableBase transactionLogBase)).reaches path
  have run : (init cfg fmt).run (fresh files now ssTableBase transactionLogBase) = .ok () start := by
    rw [← run_initStepwise, alone.run]
    rfl
  exact ⟨start, ⟨now, ssTableBase, transactionLogBase, sstLow, txlLow, Prog.reaches_returns run⟩,
    (WorkingSession.opened).jobs steps⟩

end Opening

section Scripts

/-- Jobs that write at once are jobs that write bit by bit. -/
theorem Session.worked (session : Session cfg fmt permit start events db) :
    WorkingSession cfg fmt permit start events db := by
  induction session with
  | opened => exact .opened
  | job _ step ih => exact ih.job (.finishing step)
  | returned _ bounded path ih => exact ih.returned bounded (path.widen fun _ _ => .finishing)
  | threw _ bounded path ih => exact ih.threw bounded (path.widen fun _ _ => .finishing)

theorem openedStepwise_opened : OpenedStepwise cfg fmt permit ∅ (opened cfg fmt) := by
  refine ⟨0, 0, 0, by decide, by decide, ?_⟩
  obtain ⟨db, run⟩ : ∃ db, (init cfg fmt).run (fresh ∅ 0 0 0) = .ok () db :=
    init_returns disk_empty .nil 0 (Nat.zero_le _) 0
  rw [opened, run]
  exact Prog.reaches_returns ((congrFun (run_initStepwise cfg fmt) _).trans run)

/-- A running flush job has got as far as these bytes. -/
def scribble (bytes : List Byte) (db : ProjectDbImpl) : Option ProjectDbImpl :=
  (db.flushToDiskFutures.find? (·.future.isRunning)).map fun job =>
    { db with files := db.files.write job.fileName bytes }

theorem scribble_working {bytes : List Byte} (run : scribble bytes s = some t) : Working cfg permit s t := by
  obtain ⟨job, found, rfl⟩ := Option.map_eq_some_iff.mp run
  have running : job.future.isRunning = true := List.find?_some (p := fun job : FlushJob => job.future.isRunning) found
  exact .writing bytes (Or.inl ⟨job, List.mem_of_find?_eq_some found, job.future.isRunning_iff.mp running, rfl⟩)

/-- A script, some bytes that a flush job has then got to, and an instant of the next call. -/
def playUnfinished (cfg : Config) (fmt : LogFormat) (moves : List Move) (bytes : List Byte) (call : Call) (actions : Nat) :
    Option ((List Event × ProjectDbImpl) × ProjectDbImpl) := do
  let (events, played) ← play cfg fmt (opened cfg fmt) moves
  let db ← scribble bytes played
  if db.Bounded then pure ((events, db), (Prog.advance actions (call.prog cfg fmt) db).2) else none

theorem playUnfinished_session (permit : List SSTable → Nat → Prop) {moves : List Move} {bytes : List Byte}
    {actions : Nat} (permitted : Permitted cfg fmt permit (opened cfg fmt) moves)
    (played : playUnfinished cfg fmt moves bytes call actions = some ((events, db), t)) :
    WorkingSession cfg fmt permit (opened cfg fmt) events db ∧ db.Bounded ∧
      ∃ rest, Prog.Reaches (Working cfg permit) (call.prog cfg fmt) db rest t := by
  simp only [playUnfinished, Option.bind_eq_bind, Option.bind_eq_some_iff, Prod.exists] at played
  obtain ⟨_, before, script, scribbled, wrote, last⟩ := played
  split_ifs at last with bounded
  cases last
  have session : Session cfg fmt permit (opened cfg fmt) _ before := play_session .opened permitted script
  exact ⟨session.worked.job (scribble_working wrote), bounded, _, Prog.reaches_advance _ actions _ _⟩

end Scripts

section Sessions

/-- Jobs that write their files bit by bit, beside `init` as well as beside the
calls, are no different from jobs that write them at once: the same calls with
the same outcomes are a session with the latter, and at every point of the next
call the two states are the same but for temporary files that a running job has
still to finish. -/
theorem jobs_write_at_once (disk : Disk files tables logs) (opened : OpenedStepwise cfg fmt permit files start')
    (session : WorkingSession cfg fmt permit start' events db') (bounded : db'.Bounded)
    (path : Prog.Reaches (Working cfg permit) (call.prog cfg fmt) db' rest t') :
    ∃ start db t, Opened cfg fmt permit files start ∧ Session cfg fmt permit start events db ∧ db.Bounded ∧
      Prog.Reaches (Others cfg permit) (call.prog cfg fmt) db rest t ∧ (Beside cfg db db' ∧ Beside cfg t t') ∧
      ∀ n, HalfWritten cfg t n → n.extension = some .ip ∨ n.extension = some .merged := by
  obtain ⟨start, atOnce, first⟩ := opened.opened
  obtain ⟨memory, loads⟩ := atOnce.loads disk
  obtain ⟨v, represents⟩ := atOnce.represents disk loads
  obtain ⟨db, coarse, beside⟩ := (first.behind session).session represents
  have low := beside.bounded bounded
  obtain ⟨t, reached, near, orderly⟩ := coarse.working represents low beside path
  exact ⟨start, db, t, atOnce, coarse, low, reached, ⟨beside, near⟩, fun n half => half.temporary orderly⟩

/-- The first byte of an SSTable is in its file when the key is looked up. -/
theorem jobs_write_at_once_sample : ∃ db' t' start db t,
    playUnfinished sessionConfig transactionLog [.call (.set sampleKey oldString)] [0] (.get sampleKey) 3 =
        some (([(.set sampleKey oldString, .ok none)], db'), t') ∧
      Opened sessionConfig transactionLog anyCompaction ∅ start ∧
      Session sessionConfig transactionLog anyCompaction start [(.set sampleKey oldString, .ok none)] db ∧
      Beside sessionConfig db db' ∧ Beside sessionConfig t t' := by
  have possible : (playUnfinished sessionConfig transactionLog [.call (.set sampleKey oldString)] [0]
      (.get sampleKey) 3).map (fun states => states.1.1) = some [(.set sampleKey oldString, .ok none)] := by decide +kernel
  obtain ⟨⟨⟨events, db'⟩, t'⟩, played, same⟩ := Option.map_eq_some_iff.mp possible
  change events = _ at same
  subst same
  obtain ⟨session, bounded, rest, path⟩ := playUnfinished_session anyCompaction (permitted_of fun _ _ _ => trivial) played
  obtain ⟨start, db, t, atOnce, coarse, _, _, near, _⟩ :=
    jobs_write_at_once disk_empty openedStepwise_opened session bounded path
  exact ⟨db', t', start, db, t, played, atOnce, coarse, near⟩

end Sessions

section Lives

/-- The directories that processes leave one after the other when their jobs
write bit by bit: a process stops in a call while no compaction is being
installed, or before the database is open. -/
inductive WorkingLives (fmt : LogFormat) (permit : Config → List SSTable → Nat → Prop) (first : Files) :
    Files → List Request → Prop
  | start : WorkingLives fmt permit first first []
  | stopped {cfg : Config} {files : Files} {past : List Request} {start db t : ProjectDbImpl} {events : List Event}
      {call : Call} {rest : DbProg (Option StdString)} : WorkingLives fmt permit first files past →
      OpenedStepwise cfg fmt (permit cfg) files start →
      WorkingSession cfg fmt (permit cfg) start events db → db.Bounded →
      Prog.Reaches (Working cfg (permit cfg)) (call.prog cfg fmt) db rest t → ¬ t.CompactionTaken → t.Bounded →
      LogsLoadBack fmt t → WorkingLives fmt permit first t.files (past ++ events.map .completed ++ [.interrupted call])
  | opening {cfg : Config} {files : Files} {past : List Request} {now : UInt64} {ssTableBase transactionLogBase : Nat}
      {rest : DbProg Unit} {t : ProjectDbImpl} : WorkingLives fmt permit first files past →
      Prog.Reaches (Working cfg (permit cfg)) (initStepwise cfg fmt) (fresh files now ssTableBase transactionLogBase)
        rest t → WorkingLives fmt permit first t.files past

/-- What a directory stands for does not depend on temporary files. -/
theorem StandsFor.preserves {other : Files} {said : StdString → Except Exn (Option StdString)}
    (stands : StandsFor fmt files said) (same : ∀ n : FileName, n.extension = some .sst ∨ n.extension = some .txl →
      other.read n = files.read n) : StandsFor fmt other said := by
  obtain ⟨tables, logs, memory, disk, loads, answers⟩ := stands
  exact ⟨tables, logs, memory, disk.frame same, loads, answers⟩

theorem Beside.data (beside : Beside cfg t t') (orderly : Orderly t) (n : FileName)
    (data : n.extension = some .sst ∨ n.extension = some .txl) : t'.files.read n = t.files.read n := by
  cases beside with
  | intro files agree =>
    exact agree n (orderly.data data)

theorem Beside.logsLoadBack (beside : Beside cfg t t') (orderly : Orderly t) (back : LogsLoadBack fmt t') :
    LogsLoadBack fmt t := by
  have data := beside.data orderly
  cases beside with
  | intro files agree =>
    intro e member
    have loads := back e member
    rw [getFileStream] at loads ⊢
    rwa [data _ (Or.inr (orderly.logs e member))] at loads

theorem Beside.taken (beside : Beside cfg t t') (taken : t.CompactionTaken) : t'.CompactionTaken := by
  cases beside
  exact taken

theorem WorkingLives.standsFor (lives : WorkingLives fmt Harmless first files past) (disk : Disk first tables logs)
    (loads : LogsLoad fmt logs memory) :
    ∃ m, Performs (stored tables memory) past m ∧ StandsFor fmt files fun key => .ok (m key) := by
  induction lives with
  | start => exact ⟨_, .start, tables, logs, memory, disk, loads, fun _ => rfl⟩
  | stopped _ opened session bounded path free later back ih =>
    obtain ⟨m, performs, stands⟩ := ih
    obtain ⟨start, atOnce, before⟩ := opened.opened
    obtain ⟨s, v, represents, _⟩ := stands.represents atOnce
    obtain ⟨db, coarse, beside⟩ := (before.behind session).session represents
    have low := beside.bounded bounded
    obtain ⟨t, reached, near, orderly⟩ := coarse.working represents low beside path
    obtain ⟨n, performed, left⟩ := stands.interrupted performs atOnce coarse low reached
      (fun taken => free (near.taken taken)) (near.bounded later) (near.logsLoadBack orderly back)
    exact ⟨n, performed, left.preserves (near.data orderly)⟩
  | @opening cfg files past now ssTableBase transactionLogBase rest t _ path ih =>
    obtain ⟨m, performs, stands⟩ := ih
    obtain ⟨u, _, reloading, steps⟩ :=
      (initStepwise_outruns (unlaunched_fresh files now ssTableBase transactionLogBase)).reaches path
    have still : Reloading files t := Reloading.stable.steps reloading steps
    exact ⟨m, performs, stands.preserves fun n data => still.files n (data.elim lasts_sst lasts_txl)⟩

theorem Beside.answersAs {m : KeyMap} (beside : Beside cfg t t') (orderly : Orderly t) (answers : AnswersAs cfg t m) :
    AnswersAs cfg t' m := by
  intro key
  rw [← answers key]
  have found := find_along key orderly beside
  unfold ProjectDbImpl.answer
  cases run : find cfg key t with
  | ok value u =>
    rw [run] at found
    obtain ⟨_, u', again, rfl, _⟩ := found.of_ok
    rw [again]
  | error e u =>
    rw [run] at found
    obtain ⟨u', again, _⟩ := found.of_error
    rw [again]

theorem storeRun_nil {s t : Store} (run : Store.Run cfg permit s events t) (none : events = []) : t = s := by
  cases run with
  | start => rfl
  | call => simp at none

/-- However far the jobs of a process had got with their files when it stopped,
in its calls or while it was still being opened: a database that is opened on the
directory answers, in any state of the jobs that it launches itself, as a map
that has performed every completed call, in order and with the answer it got, and
each interrupted call in its place or not at all. -/
theorem durable_among_unfinished_jobs (cfg : Config) (disk : Disk first tables logs) (loads : LogsLoad fmt logs memory)
    (lives : WorkingLives fmt Harmless first files past) :
    (∀ now ssTableBase transactionLogBase, ssTableBase < 2 ^ 31 →
      (∃ recovered, (initStepwise cfg fmt).run (fresh files now ssTableBase transactionLogBase) = .ok () recovered) ∧
      ∀ e t, ¬ Prog.Reaches (Working cfg (Harmless cfg)) (initStepwise cfg fmt)
        (fresh files now ssTableBase transactionLogBase) (.throw e) t) ∧
    ∃ m, Performs (stored tables memory) past m ∧
      ∀ recovered, OpenedStepwise cfg fmt (Harmless cfg) files recovered → AnswersAs cfg recovered m := by
  obtain ⟨m, performs, stands⟩ := lives.standsFor disk loads
  refine ⟨fun now ssTableBase transactionLogBase low => ?_, m, performs, fun recovered opened => ?_⟩
  · obtain ⟨tables', logs', memory', disk', loads', _⟩ := stands
    obtain ⟨recovered, run⟩ : ∃ recovered, (init cfg fmt).run (fresh files now ssTableBase transactionLogBase) =
        .ok () recovered := init_returns disk' loads' now low.le transactionLogBase
    rw [← run_initStepwise] at run
    refine ⟨⟨recovered, run⟩, fun e t path => ?_⟩
    obtain ⟨u, alone, _⟩ :=
      (initStepwise_outruns (unlaunched_fresh files now ssTableBase transactionLogBase)).reaches path
    have throws := alone.run
    rw [run] at throws
    cases throws
  · obtain ⟨start, atOnce, before⟩ := opened.opened
    obtain ⟨s, v, represents, same⟩ := stands.represents atOnce
    obtain ⟨db, coarse, beside⟩ := before.session represents
    obtain ⟨x, w, run, now⟩ := coarse.storeRun represents
    have answers := now.answersAs
    rw [storeRun_nil run rfl, same] at answers
    exact beside.answersAs now.inv.orderly answers

/-- A removed key, the job that flushes its MemTable still running. -/
def unfinishedScript : List Move :=
  [.call (.set sampleKey oldString), .flush 0, .call (.get sampleKey), .call (.remove sampleKey)]

def unfinishedEvents : List Event :=
  [(.set sampleKey oldString, .ok none), (.get sampleKey, .ok (some oldString)), (.remove sampleKey, .ok none)]

/-- A process stops in a call when the flush job has written one byte. -/
theorem unfinished_lives : ∃ db t,
    playUnfinished sessionConfig transactionLog unfinishedScript [0] (.remove otherKey) 5 =
        some ((unfinishedEvents, db), t) ∧
      WorkingLives transactionLog Harmless ∅ t.files
        ([] ++ unfinishedEvents.map .completed ++ [.interrupted (.remove otherKey)]) := by
  have possible : (playUnfinished sessionConfig transactionLog unfinishedScript [0] (.remove otherKey) 5).bind
      (fun states => if (states.2.ssTableCompactionFuture.isNone ∧ states.2.Bounded) ∧
        LogsLoadBack transactionLog states.2 then some states.1.1 else none) = some unfinishedEvents := by decide +kernel
  obtain ⟨⟨⟨events, db⟩, t⟩, played, known⟩ := Option.bind_eq_some_iff.mp possible
  split_ifs at known with loadable
  have same : events = unfinishedEvents := Option.some.inj known
  subst same
  obtain ⟨⟨idle, low⟩, back⟩ := loadable
  obtain ⟨session, bounded, rest, path⟩ :=
    playUnfinished_session (Harmless sessionConfig) (permitted_of fun member => absurd member (by decide)) played
  exact ⟨db, t, played, .stopped .start openedStepwise_opened session bounded path (not_compactionTaken idle) low back⟩

theorem durable_among_unfinished_jobs_sample : ∃ db t recovered m,
    playUnfinished sessionConfig transactionLog unfinishedScript [0] (.remove otherKey) 5 =
        some ((unfinishedEvents, db), t) ∧
      (initStepwise sessionConfig transactionLog).run (fresh t.files 0 0 0) = .ok () recovered ∧
      Performs (stored [] []) ([] ++ unfinishedEvents.map .completed ++ [.interrupted (.remove otherKey)]) m ∧
      AnswersAs sessionConfig recovered m := by
  obtain ⟨db, t, played, lives⟩ := unfinished_lives
  obtain ⟨returns, m, performs, answers⟩ :=
    durable_among_unfinished_jobs sessionConfig disk_empty .nil lives
  obtain ⟨⟨recovered, run⟩, _⟩ := returns 0 0 0 (by decide)
  exact ⟨db, t, recovered, m, played, run, performs,
    answers recovered ⟨0, 0, 0, by decide, by decide, Prog.reaches_returns run⟩⟩

end Lives
end ProjectDbImpl
end ProjectDb
