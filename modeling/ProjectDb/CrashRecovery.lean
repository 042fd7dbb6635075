import ProjectDb.Reopening

namespace ProjectDb
namespace ProjectDbImpl

variable {cfg : Config} {fmt : LogFormat} {v w : View} {files : Files} {tables : List (Nat × SSTable)}
  {logs : List (Nat × List Byte)} {memory : List Table} {start db recovered t : ProjectDbImpl}

/-- The answers that the SSTables and the logs of a directory stand for. -/
def stored (tables : List (Nat × SSTable)) (memory : List Table) : KeyMap := fun key =>
  (lookup ((tables.map fun t => t.2.table) ++ memory) ⟨key⟩).bind Value.underlyingValue

/-- The directories that databases leave, with the answers that were last to be
had: a process may stop at any time, in a call as well as in `init`. -/
inductive Life (cfg : Config) (fmt : LogFormat) : Files → (StdString → Except Exn (Option StdString)) → Prop
  | directory {files : Files} {tables : List (Nat × SSTable)} {logs : List (Nat × List Byte)} {memory : List Table} :
      Disk files tables logs → LogsLoad fmt logs memory → Life cfg fmt files fun key => .ok (stored tables memory key)
  | crashed {files : Files} {said : StdString → Except Exn (Option StdString)} {start db t : ProjectDbImpl}
      {events : List Event} {call : Call} {rest : DbProg (Option StdString)} : Life cfg fmt files said →
      Opened cfg fmt anyCompaction files start → Session cfg fmt anyCompaction start events db → db.Bounded →
      Prog.Reaches (Others cfg anyCompaction) (call.prog cfg fmt) db rest t → t.Bounded → LogsLoadBack fmt t →
      Life cfg fmt t.files (answer cfg t)
  | closed {files : Files} {said : StdString → Except Exn (Option StdString)} {start db t : ProjectDbImpl}
      {events : List Event} : Life cfg fmt files said →
      Opened cfg fmt anyCompaction files start → Session cfg fmt anyCompaction start events db → db.Bounded →
      Prog.Reaches (Others cfg anyCompaction) (destroy cfg) db (.ret ()) t → LogsLoadBack fmt t →
      Life cfg fmt t.files (answer cfg db)
  | recovering {files : Files} {said : StdString → Except Exn (Option StdString)} {now : UInt64}
      {ssTableBase transactionLogBase : Nat} {rest : DbProg Unit} {t : ProjectDbImpl} : Life cfg fmt files said →
      ssTableBase < 2 ^ 31 →
      Prog.Reaches (Others cfg anyCompaction) (init cfg fmt) (fresh files now ssTableBase transactionLogBase) rest t →
      Life cfg fmt t.files said

/-- The directory can be loaded, and stands for the answers. -/
def StandsFor (fmt : LogFormat) (files : Files) (said : StdString → Except Exn (Option StdString)) : Prop :=
  ∃ tables logs memory, Disk files tables logs ∧ LogsLoad fmt logs memory ∧
    ∀ key, said key = .ok (stored tables memory key)

/-- Tables of the oldest MemTables change nothing below all MemTables. -/
theorem lookup_handed (older memory : List Table) (taken : Nat) (key : Key) :
    lookup (older ++ memory.take taken ++ memory) key = lookup (older ++ memory) key := by
  rw [lookup_append, lookup_append, lookup_append]
  cases found : lookup memory key with
  | some value => rfl
  | none =>
    have absent : lookup (memory.take taken) key = none :=
      (newest_eq_none _).mpr fun t member => (newest_eq_none _).mp found t (List.mem_of_mem_take member)
    rw [absent]
    rfl

theorem shelf_tables (xs : List Indexed) :
    (xs.map fun x => (counterOf x, x.2)).map (fun t => t.2.table) = tablesOf xs := by
  rw [List.map_map]
  rfl

/-- What the directory of an open database stands for: what its tables answer. -/
theorem Inv.standsFor (inv : Inv cfg anyCompaction v t) (lined : tablesOf v.handed = v.memory.take v.taken)
    (bounded : t.Bounded) (back : LogsLoadBack fmt t) : StandsFor fmt t.files (ProjectDbImpl.answer cfg t) := by
  refine ⟨_, v.logs, v.memory, inv.directory bounded, inv.logsLoad back, fun key => ?_⟩
  rw [inv.answer, View.answer, stored, shelf_tables, View.shelf, tablesOf_append, lined, lookup_handed]
  rfl

/-- Without compactions there is none to be installed. -/
theorem Inv.idle (inv : Inv cfg anyCompaction v t) (off : cfg.numSSTableToCompact = 0) :
    t.ssTableCompactionFuture = none := by
  by_contra some
  obtain ⟨job, launched⟩ := Option.ne_none_iff_exists'.mp some
  obtain ⟨_, _, positive, _⟩ := inv.compacting job launched
  exact positive (by rw [off]; rfl)

/-- Whatever happens, the directory stands for the answers that were last to be had. -/
theorem Life.standsFor {said : StdString → Except Exn (Option StdString)} (life : Life cfg fmt files said)
    (off : cfg.numSSTableToCompact = 0) : StandsFor fmt files said := by
  induction life with
  | directory disk loads => exact ⟨_, _, _, disk, loads, fun _ => rfl⟩
  | crashed _ opened session bounded path later back ih =>
    obtain ⟨tables, logs, memory, disk, loads, _⟩ := ih
    obtain ⟨xs, _, inv⟩ := opened.on disk loads
    obtain ⟨v, now, settled, _⟩ := session.inv inv (openedView_settled xs logs memory)
    obtain ⟨w, crashed, lined⟩ := (((now.ready bounded).call settled fmt _).reaches path).now.loadable (by rw [off]; rfl)
    exact crashed.standsFor lined later back
  | closed _ opened session bounded path back ih =>
    obtain ⟨tables, logs, memory, disk, loads, _⟩ := ih
    obtain ⟨xs, _, inv⟩ := opened.on disk loads
    obtain ⟨v, now, settled, _⟩ := session.inv inv (openedView_settled xs logs memory)
    obtain ⟨w, result, later, small⟩ := now.closes settled bounded path
    refine ⟨_, w.logs, w.memory, later.directory small, later.logsLoad back, fun key => ?_⟩
    rw [now.answer, View.answer, stored, shelf_tables, View.layers, View.shelf, tablesOf_append, List.append_assoc,
      result.moved, result.kept (pendingStart_none.mpr (now.idle off)), settled.handed]
    rfl
  | @recovering files said now ssTableBase transactionLogBase rest t _ low path ih =>
    obtain ⟨tables, logs, memory, disk, loads, same⟩ := ih
    have still := ((init_safe disk loads now transactionLogBase low.le).reaches path).now
    exact ⟨tables, logs, memory, still, loads, same⟩

/-- Without compactions a database that has crashed is recovered: `init` never
fails, and the answers are those that were to be had just before the crash. -/
theorem crash_recovery {said : StdString → Except Exn (Option StdString)} (off : cfg.numSSTableToCompact = 0)
    (life : Life cfg fmt files said) (now : UInt64) {ssTableBase : Nat} (low : ssTableBase < 2 ^ 31)
    (transactionLogBase : Nat) :
    (∃ recovered, (init cfg fmt).run (fresh files now ssTableBase transactionLogBase) = .ok () recovered) ∧
    (∀ e t, ¬ Prog.Reaches (Others cfg anyCompaction) (init cfg fmt)
      (fresh files now ssTableBase transactionLogBase) (.throw e) t) ∧
    ∀ recovered, Prog.Reaches (Others cfg anyCompaction) (init cfg fmt)
      (fresh files now ssTableBase transactionLogBase) (.ret ()) recovered →
      ∀ key, answer cfg recovered key = said key := by
  obtain ⟨tables, logs, memory, disk, loads, same⟩ := life.standsFor off
  have safe : (init cfg fmt).Safe (Others cfg anyCompaction) (fun t => Disk t.files tables logs) (fun _ => False)
      (fun _ => OpenedOn cfg anyCompaction tables logs memory) (fresh files now ssTableBase transactionLogBase) :=
    init_safe disk loads now transactionLogBase low.le
  refine ⟨init_returns disk loads now low.le transactionLogBase, fun e t path => (safe.reaches path).2,
    fun recovered path key => ?_⟩
  obtain ⟨xs, rfl, inv⟩ := (safe.reaches path).returned
  rw [same, inv.answer, View.answer, stored, List.map_map]
  rfl

/-- Small MemTables and no compaction. -/
def crashConfig : Config := { Config.default with memTableApproximateMaxSizeInBytes := 6, numSSTableToCompact := 0 }

/-- A MemTable whose flush has finished, and one more. -/
def crashScript : List Move := [.call (.remove sampleKey), .call (.remove otherKey), .flush 0]

/-- A script, a call that stops after some actions, an `init` that does as well,
and one that does not: the states where they end. -/
def playCrash (cfg : Config) (fmt : LogFormat) (moves : List Move) (actions initActions : Nat) :
    Option (ProjectDbImpl × ProjectDbImpl × ProjectDbImpl) := do
  let (_, db) ← play cfg fmt (opened cfg fmt) moves
  let t := (Prog.advance actions (Call.prog cfg fmt (.get sampleKey)) db).2
  let left := (Prog.advance initActions (init cfg fmt) (fresh t.files 0 0 0)).2
  let (_, recovered) ← ((init cfg fmt).run (fresh left.files 0 0 0)).ok?
  if db.Bounded ∧ t.Bounded ∧ LogsLoadBack fmt t then pure (t, left, recovered) else none

/-- The process stops when the file of the flushed MemTable has been renamed but
its log is still there: the table is loaded twice. -/
theorem crash_recovery_sample : ∃ t left recovered,
    playCrash crashConfig transactionLog crashScript 3 1 = some (t, left, recovered) ∧
      (t.ssTableIndexQueue.queue.length, t.memTableQueue.length) = (0, 2) ∧
      (recovered.ssTableIndexQueue.queue.length, recovered.memTableQueue.length) = (1, 2) ∧
      ∀ key, answer crashConfig recovered key = answer crashConfig t key := by
  have possible : (playCrash crashConfig transactionLog crashScript 3 1).map (fun states =>
      ((states.1.ssTableIndexQueue.queue.length, states.1.memTableQueue.length),
        (states.2.2.ssTableIndexQueue.queue.length, states.2.2.memTableQueue.length))) =
          some ((0, 2), (1, 2)) := by decide +kernel
  obtain ⟨⟨t, left, recovered⟩, played, sizes⟩ := Option.map_eq_some_iff.mp possible
  obtain ⟨before, after⟩ := Prod.mk.inj sizes
  refine ⟨t, left, recovered, played, before, after, ?_⟩
  simp only [playCrash, Option.bind_eq_bind, Option.bind_eq_some_iff, Prod.exists, EStateM.Result.ok?_eq_some] at played
  obtain ⟨events, db, script, _, reopened, again, last⟩ := played
  split_ifs at last with all
  cases last
  have session : Session crashConfig transactionLog anyCompaction (opened crashConfig transactionLog)
      events db := play_session .opened (permitted_of fun _ _ _ => trivial) script
  have crash := Prog.reaches_advance (Others crashConfig anyCompaction) 3
    (Call.prog crashConfig transactionLog (.get sampleKey)) db
  have empty : Life crashConfig transactionLog ∅ _ := .directory disk_empty .nil
  have crashed := Life.crashed empty opened_opened session all.1 crash all.2.1 all.2.2
  have stops := Prog.reaches_advance (Others crashConfig anyCompaction) 1 (init crashConfig transactionLog)
    (fresh (Prog.advance 3 (Call.prog crashConfig transactionLog (.get sampleKey)) db).2.files 0 0 0)
  have life := Life.recovering crashed (by decide) stops
  obtain ⟨_, _, same⟩ := crash_recovery rfl life 0 (show 0 < 2 ^ 31 by decide) 0
  exact same recovered (Prog.reaches_returns again)

end ProjectDbImpl
end ProjectDb
