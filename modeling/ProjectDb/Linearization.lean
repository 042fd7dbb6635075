import ProjectDb.StoreRuns

namespace ProjectDb
namespace ProjectDbImpl

variable {cfg : Config} {fmt : LogFormat} {permit : List SSTable → Nat → Prop} {s : Store} {v w : View} {n : Nat}
  {start db t u : ProjectDbImpl} {files : Files} {tables : List (Nat × SSTable)} {logs : List (Nat × List Byte)}
  {memory : List Table} {events : List Event} {call : Call} {rest later : DbProg (Option StdString)}

/-- Some store before the write of the call is to be seen. -/
def ShowsBefore (cfg : Config) (fmt : LogFormat) (permit : List SSTable → Nat → Prop) (call : Call) (s : Store)
    (t : ProjectDbImpl) : Prop :=
  ∃ x v, Store.Before cfg permit call s x ∧ Shows cfg fmt permit x v t

/-- Some store from the write of the call on is to be seen. -/
def ShowsAfter (cfg : Config) (fmt : LogFormat) (permit : List SSTable → Nat → Prop) (call : Call) (s : Store)
    (t : ProjectDbImpl) : Prop :=
  ∃ x v, Store.After cfg permit call s x ∧ Shows cfg fmt permit x v t

theorem Represents.commits (represents : Represents cfg fmt permit s v db) (bounded : db.Bounded) (call : Call) :
    (call.prog cfg fmt).Commits (Others cfg permit) (ShowsBefore cfg fmt permit call s) (ShowsAfter cfg fmt permit call s)
      (fun _ => False) (Calls cfg fmt permit (Store.Settles cfg permit s) 0 call)
      (Calls cfg fmt permit (Store.Settles cfg permit s) 0 call) db :=
  (represents.stands bounded).calls (fun x before w _ shows => ⟨x, w, before, shows⟩)
    fun x after w _ shows => ⟨x, w, after, shows⟩

/-- The database answers every key as the map does. -/
def AnswersAs (cfg : Config) (t : ProjectDbImpl) (m : KeyMap) : Prop := ∀ key, answer cfg t key = .ok (m key)

theorem Represents.answersAs (represents : Represents cfg fmt permit s v t) : AnswersAs cfg t s.answer := by
  intro key
  rw [represents.inv.answer, View.answer, Store.answer, View.layers, Store.layers, tablesOf_eq, represents.queue,
    represents.memory.memory]

theorem Shows.answersAs (shows : Shows cfg fmt permit s v t) (free : ¬ t.CompactionTaken) : AnswersAs cfg t s.answer := by
  intro key
  obtain ⟨inv, _, queue, _⟩ := shows.tables free
  rw [inv.answer, View.answer, Store.answer, View.layers, Store.layers, tablesOf_eq, queue, shows.memory.memory]

/-- A call takes effect at one instant: whenever no compaction is being
installed, all answers are those of the map before the call, or all are those of
the map after it; once they are the latter they stay so; and the call returns
what the map before it answers. -/
theorem linearization (disk : Disk files tables logs) (opened : Opened cfg fmt (Harmless cfg) files start)
    (session : Session cfg fmt (Harmless cfg) start events db) (bounded : db.Bounded)
    (path : Prog.Reaches (Others cfg (Harmless cfg)) (call.prog cfg fmt) db rest t) (free : ¬ t.CompactionTaken)
    (more : Prog.Reaches (Others cfg (Harmless cfg)) rest t later u) (still : ¬ u.CompactionTaken) :
    ∃ m : KeyMap, AnswersAs cfg db m ∧
      (AnswersAs cfg t m ∧ (AnswersAs cfg u m ∨ AnswersAs cfg u (m.after call)) ∨
        AnswersAs cfg t (m.after call) ∧ AnswersAs cfg u (m.after call)) ∧
      ∀ answer, later = .ret answer → answer = m.answer call ∧ AnswersAs cfg u (m.after call) := by
  obtain ⟨memory, loads⟩ := opened.loads disk
  obtain ⟨v, represents⟩ := opened.represents disk loads
  obtain ⟨s, w, _, now⟩ := session.storeRun represents
  have early (x : ProjectDbImpl) (none : ¬ x.CompactionTaken) (shows : ShowsBefore cfg fmt (Harmless cfg) call s x) :
      AnswersAs cfg x s.answer := by
    obtain ⟨y, z, before, shows⟩ := shows
    exact before.answer ▸ shows.answersAs none
  have late (x : ProjectDbImpl) (none : ¬ x.CompactionTaken) (shows : ShowsAfter cfg fmt (Harmless cfg) call s x) :
      AnswersAs cfg x (s.answer.after call) := by
    obtain ⟨y, z, after, shows⟩ := shows
    exact after.answer ▸ shows.answersAs none
  have commits := (now.commits bounded call).reaches path
  refine ⟨s.answer, now.answersAs, ?_, ?_⟩
  · rcases commits with unwritten | written
    · refine Or.inl ⟨early t free unwritten.now, ?_⟩
      exact (unwritten.reaches more).imp (fun now => early u still now.now) fun now => late u still now.now
    · exact Or.inr ⟨late t free written.now, late u still (written.reaches more).now⟩
  · rintro answer rfl
    obtain ⟨m, x, ⟨settles, rfl⟩, done⟩ := now.returned bounded (path.trans more)
    have same := done.represents.answersAs
    rw [Store.answer_called, settles.answer] at same
    exact ⟨by rw [settles.answer], same⟩

/-- A script, and two instants of a call after it, the second some actions after the first. -/
def playCall (cfg : Config) (fmt : LogFormat) (moves : List Move) (call : Call) (actions more : Nat) :
    Option ((List Event × ProjectDbImpl) × ProjectDbImpl × ProjectDbImpl) := do
  let (events, db) ← play cfg fmt (opened cfg fmt) moves
  let first := Prog.advance actions (call.prog cfg fmt) db
  let second := Prog.advance more first.1 first.2
  if db.Bounded ∧ first.2.ssTableCompactionFuture.isNone ∧ second.2.ssTableCompactionFuture.isNone then
    pure ((events, db), first.2, second.2)
  else none

theorem playCall_session (permit : List SSTable → Nat → Prop) {moves : List Move} {actions more : Nat}
    (permitted : Permitted cfg fmt permit (opened cfg fmt) moves)
    (played : playCall cfg fmt moves call actions more = some ((events, db), t, u)) :
    (Session cfg fmt permit (opened cfg fmt) events db ∧ db.Bounded) ∧
      ∃ rest later, (Prog.Reaches (Others cfg permit) (call.prog cfg fmt) db rest t ∧ ¬ t.CompactionTaken) ∧
        Prog.Reaches (Others cfg permit) rest t later u ∧ ¬ u.CompactionTaken := by
  simp only [playCall, Option.bind_eq_bind, Option.bind_eq_some_iff, Prod.exists] at played
  obtain ⟨events, db, script, last⟩ := played
  split_ifs at last with all
  cases last
  have session : Session cfg fmt permit (opened cfg fmt) _ db := play_session .opened permitted script
  exact ⟨⟨session, all.1⟩, _, _, ⟨Prog.reaches_advance _ actions _ db, not_compactionTaken all.2.1⟩,
    Prog.reaches_advance _ more _ _, not_compactionTaken all.2.2⟩

/-- The call installs a compaction, and the new value is to be had from its
fifteenth action on. -/
theorem linearization_sample : ∃ events db t u,
    playCall sessionConfig transactionLog harmlessScript.dropLast (.set sampleKey newString) 14 1 =
        some ((events, db), t, u) ∧
      (db.ssTableIndexQueue.queue.length, t.ssTableIndexQueue.queue.length) = (4, 2) ∧
      (answer sessionConfig t sampleKey, answer sessionConfig u sampleKey) = (.ok none, .ok (some newString)) ∧
      ∃ m : KeyMap, AnswersAs sessionConfig db m ∧
        (AnswersAs sessionConfig t m ∧
            (AnswersAs sessionConfig u m ∨ AnswersAs sessionConfig u (m.after (.set sampleKey newString))) ∨
          AnswersAs sessionConfig t (m.after (.set sampleKey newString)) ∧
            AnswersAs sessionConfig u (m.after (.set sampleKey newString))) := by
  have possible : (playCall sessionConfig transactionLog harmlessScript.dropLast (.set sampleKey newString) 14 1).map
      (fun states => ((states.1.2.ssTableIndexQueue.queue.length, states.2.1.ssTableIndexQueue.queue.length),
        answer sessionConfig states.2.1 sampleKey, answer sessionConfig states.2.2 sampleKey)) =
      some ((4, 2), .ok none, .ok (some newString)) := by decide +kernel
  obtain ⟨⟨⟨events, db⟩, t, u⟩, played, known⟩ := Option.map_eq_some_iff.mp possible
  obtain ⟨installed, answers⟩ := Prod.mk.inj known
  obtain ⟨⟨session, bounded⟩, rest, later, ⟨path, free⟩, more, still⟩ :=
    playCall_session (Harmless sessionConfig) (by decide +kernel) played
  obtain ⟨m, before, instant, _⟩ := linearization disk_empty opened_opened session bounded path free more still
  exact ⟨events, db, t, u, played, installed, answers, m, before, instant⟩

section Logs

/-- The log of a MemTable is the file of the layer, and its table is the layer's. -/
def Backs (fmt : LogFormat) (t : ProjectDbImpl) (e : MemTable × TransactionLogWritter) (l : Layer) : Prop :=
  t.files.read e.2.transactionLogFileName = some (l.contents fmt) ∧ t.tables e.1.table = l.current

theorem Shows.backs (shows : Shows cfg fmt permit s v t) : List.Forall₂ (Backs fmt t) t.memTableQueue s.memTables := by
  obtain ⟨⟨logs, memory⟩, flushing, logging, _⟩ := shows
  have found : ∀ e ∈ t.memTableQueue, ∃ l ∈ v.logs, t.files.read e.2.transactionLogFileName = some l.2 := by
    intro e member
    have name : e.2.transactionLogFileName ∈ v.logs.map fun l => genTransactionLogFileName l.1 :=
      logging.names ▸ List.mem_map_of_mem member
    obtain ⟨l, listed, same⟩ := List.mem_map.mp name
    exact ⟨l, listed, (logging.files _ (same ▸ rfl) _).mpr ⟨l, listed, same.symm, rfl⟩⟩
  have contents : t.memTableQueue.map (fun e => (t.files.read e.2.transactionLogFileName).getD []) =
      s.memTables.map (Layer.contents fmt) := by
    rw [← logs, logging.logs_eq, List.map_map]
    rfl
  have tables : t.memTableQueue.map (fun e => t.tables e.1.table) = s.memTables.map Layer.current :=
    flushing.memory.trans memory
  have both := congrArg₂ List.zip contents tables
  rw [List.zip_map', List.zip_map', ← List.forall₂_eq_eq_eq, List.forall₂_map_left_iff, List.forall₂_map_right_iff] at both
  refine ((List.forall₂_and_left _ _).mpr ⟨found, both⟩).imp fun e l known => ?_
  obtain ⟨⟨k, _, file⟩, same⟩ := known
  obtain ⟨log, table⟩ := Prod.mk.inj same
  rw [file, Option.getD_some] at log
  exact ⟨log ▸ file, table⟩

/-- There are no other logs. -/
theorem Shows.log_of_memTable (shows : Shows cfg fmt permit s v t) {n : FileName} (isLog : n.extension = some .txl)
    (member : n ∈ t.files.names) : n ∈ t.memTableQueue.map fun e => e.2.transactionLogFileName := by
  obtain ⟨bytes, found⟩ := Directory.mem_names.mp member
  obtain ⟨l, listed, rfl, _⟩ := (shows.logging.files n isLog bytes).mp found
  rw [shows.logging.names]
  exact List.mem_map_of_mem listed

/-- At any time, also while a compaction is being installed, the logs in the
directory are those of the MemTables. Each holds what was loaded for its
MemTable, if anything, and behind it the records of exactly the writes that the
MemTable has seen, in their order; the writes of all MemTables together are the
newest ones of the session. -/
theorem log_is_history (disk : Disk files tables logs) (loads : LogsLoad fmt logs memory)
    (opened : Opened cfg fmt permit files start) (session : Session cfg fmt permit start events db) (bounded : db.Bounded)
    (path : Prog.Reaches (Others cfg permit) (call.prog cfg fmt) db rest t) :
    ∃ layers written, (written = [] ∨ written = call.operation.toList) ∧
      (∀ n ∈ t.files.names, n.extension = some .txl → n ∈ t.memTableQueue.map fun e => e.2.transactionLogFileName) ∧
      List.Forall₂ (Backs fmt t) t.memTableQueue layers ∧
      layers.flatMap Layer.writes <:+ writesOf events ++ written ∧
      ∀ l ∈ layers, (l.log, l.table) = ([], .empty) ∨ (l.log, l.table) ∈ (logs.map Prod.snd).zip memory := by
  obtain ⟨v, represents⟩ := opened.represents disk loads
  obtain ⟨s, w, run, now⟩ := session.storeRun represents
  have remembers := run.remembers (Store.unwritten_ofDisk tables logs memory)
  rcases (now.commits bounded call).reaches path with early | late
  · obtain ⟨x, _, before, shows⟩ := early.now
    have still := remembers.before before
    exact ⟨x.memTables, [], Or.inl rfl, fun n member isLog => shows.log_of_memTable isLog member, shows.backs,
      by rw [List.append_nil]; exact still.writes, still.loaded⟩
  · obtain ⟨x, _, after, shows⟩ := late.now
    have still := remembers.after after
    exact ⟨x.memTables, _, Or.inr rfl, fun n member isLog => shows.log_of_memTable isLog member, shows.backs,
      still.writes, still.loaded⟩

/-- Two MemTables that have been written to wait for their flushes while a third
one is being written to. -/
theorem log_is_history_sample : ∃ events db t u,
    playCall sessionConfig transactionLog [.call (.set sampleKey oldString), .call (.set otherKey newString)]
        (.remove sampleKey) 6 0 = some ((events, db), t, u) ∧
      ∃ layers written, (written = [] ∨ written = [Operation.remove sampleKey]) ∧
        List.Forall₂ (Backs transactionLog t) t.memTableQueue layers ∧
        layers.flatMap Layer.writes <:+ [.set sampleKey oldString, .set otherKey newString] ++ written := by
  have possible : (playCall sessionConfig transactionLog
      [.call (.set sampleKey oldString), .call (.set otherKey newString)] (.remove sampleKey) 6 0).map
        (fun states => writesOf states.1.1) = some [.set sampleKey oldString, .set otherKey newString] := by decide +kernel
  obtain ⟨⟨⟨events, db⟩, t, u⟩, played, writes⟩ := Option.map_eq_some_iff.mp possible
  obtain ⟨⟨session, bounded⟩, rest, later, ⟨path, _⟩, _⟩ :=
    playCall_session anyCompaction (permitted_of fun _ _ _ => trivial) played
  obtain ⟨layers, written, some, _, backs, newest, _⟩ :=
    log_is_history disk_empty .nil opened_opened session bounded path
  exact ⟨events, db, t, u, played, layers, written, some, backs, writes ▸ newest⟩

end Logs

end ProjectDbImpl
end ProjectDb
