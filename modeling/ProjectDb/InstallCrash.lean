import ProjectDb.Reopening

namespace ProjectDb

/-- What some tables, oldest first, have in their entries. -/
def contents (tables : List SSTable) : List Table := tables.map fun s => s.table

/-- Between the same older and newer tables, two parts of a queue have the same
newest entry of a key: each has it itself, or leaves it to the older tables. -/
def SameNewest (below part other : List SSTable) (key : Key) : Prop :=
  lookup (contents part) key = lookup (contents other) key ∨
    lookup (contents part) key = none ∧ lookup (contents other) key = lookup (contents below) key ∨
    lookup (contents other) key = none ∧ lookup (contents part) key = lookup (contents below) key

theorem sameNewest_iff (below part other : List SSTable) (key : Key) :
    SameNewest below part other key ↔
      lookup (contents (below ++ part)) key = lookup (contents (below ++ other)) key := by
  simp only [SameNewest, contents, List.map_append, lookup_append]
  cases lookup (part.map fun s => s.table) key with
  | none => cases lookup (other.map fun s => s.table) key <;> simp [eq_comm]
  | some value => cases lookup (other.map fun s => s.table) key <;> simp

/-- Two parts of a queue that have the same newest entry of every key that no
newer table has. -/
def Interchangeable (below above part other : List SSTable) : Prop :=
  ∀ key, lookup (contents above) key = none → SameNewest below part other key

theorem interchangeable_iff (below above part other : List SSTable) :
    Interchangeable below above part other ↔ ∀ key,
      lookup (contents (below ++ part ++ above)) key = lookup (contents (below ++ other ++ above)) key := by
  refine forall_congr' fun key => ?_
  rw [sameNewest_iff]
  simp only [contents, List.map_append, lookup_append]
  cases lookup (above.map fun s => s.table) key with
  | none => simp
  | some value => simp

/-- The tables that are on disk once `marked` tables of the window have been
marked as deprecated and `renamed` merged ones have been renamed, as far as they
are left of the window. -/
def leftOfWindow (cfg : Config) (window : List SSTable) (marked renamed : Nat) : List SSTable :=
  window.drop marked ++ ((groupsOfTables cfg window).map mergeGroup).take renamed

/-- Of every key that no newer table has, the tables left of the window have the
newest entry of the window, or of every one that of the merged tables. -/
def Recoverable (cfg : Config) (below window above : List SSTable) (marked renamed : Nat) : Prop :=
  Interchangeable below above (leftOfWindow cfg window marked renamed) window ∨
    Interchangeable below above (leftOfWindow cfg window marked renamed) ((groupsOfTables cfg window).map mergeGroup)

/-- Before the first mark and after the last rename nothing is missing. -/
theorem recoverable_start (cfg : Config) (below window above : List SSTable) :
    Recoverable cfg below window above 0 0 := by
  refine Or.inl fun key _ => Or.inl ?_
  rw [leftOfWindow, List.drop_zero, List.take_zero, List.append_nil]

theorem recoverable_end (cfg : Config) (below window above : List SSTable) {marked renamed : Nat}
    (all : window.length ≤ marked) (whole : (groupsOfTables cfg window).length ≤ renamed) :
    Recoverable cfg below window above marked renamed := by
  refine Or.inr fun key _ => Or.inl ?_
  rw [leftOfWindow, List.drop_eq_nil_of_le all, List.take_of_length_le (by simpa using whole), List.nil_append]

namespace Install
variable {I : Install} {base files : Files} {k i : Nat}

/-- The elements of the queue whose files are left at a stage. -/
def left (I : Install) (k i : Nat) : List Indexed := I.below ++ (I.window.drop k ++ I.installed.take i) ++ I.above

theorem Stage.left_holds (stage : I.Stage base k i files) : ∀ x ∈ I.left k i, x.1.Holds files x.2 := by
  intro x member
  simp only [left, List.mem_append] at member
  rcases member with (low | (unmarked | renamed)) | high
  · exact stage.kept x (List.mem_append_left _ low)
  · exact stage.unmarked x unmarked
  · exact stage.renamed x renamed
  · exact stage.kept x (List.mem_append_right _ high)

theorem Stage.left_names (stage : I.Stage base k i files) (named : I.Named) :
    (namesOf (I.left k i)).Sublist (namesOf I.before) := by
  have middle : (namesOf (I.window.drop k ++ I.installed.take i)).Sublist (namesOf I.window) := by
    rcases stage.order with none | all
    · subst none
      rw [List.take_zero, List.append_nil]
      exact (List.drop_sublist k _).map _
    · rw [List.drop_eq_nil_of_le all, List.nil_append]
      exact ((List.take_sublist i _).map _).trans named.firsts
  simp only [left, before, namesOf_append] at middle ⊢
  exact (middle.append_left _).append_right _

theorem Stage.left_listed (stage : I.Stage base k i files)
    (listed : ∀ n : FileName, n.extension = some .sst → ∀ bytes, base.read n = some bytes → n ∈ namesOf I.before)
    (n : FileName) (isSst : n.extension = some .sst) (bytes : List Byte) (found : files.read n = some bytes) :
    n ∈ namesOf (I.left k i) := by
  by_cases inside : n ∈ namesOf I.window
  · by_contra unlisted
    have gone := stage.gone n inside fun still => unlisted (by
      simp only [left, namesOf_append, List.mem_append] at still ⊢
      tauto)
    rw [gone] at found
    contradiction
  · rw [stage.others n isSst inside] at found
    have before := listed n isSst bytes found
    simp only [Install.before, left, namesOf_append, List.mem_append] at before ⊢
    tauto

theorem left_tables {cfg : Config} (groups : I.merged.map Prod.fst = groupsOfRange cfg I.window) (k i : Nat) :
    (I.left k i).map Prod.snd =
      I.below.map Prod.snd ++ leftOfWindow cfg (I.window.map Prod.snd) k i ++ I.above.map Prod.snd := by
  rw [left, leftOfWindow, ← tables_installed groups]
  simp only [List.map_append, List.map_drop, List.map_take]

end Install

/-- What the SSTables of a database have under a key. -/
def SSTableIndexQueue.answer (cfg : Config) (db : ProjectDbImpl) (key : StdString) : Except Exn (Option Value) :=
  match SSTableIndexQueue.get cfg key db with
  | .ok found _ => .ok found
  | .error e _ => .error e

theorem SSTableIndexQueue.answer_eq (cfg : Config) {db : ProjectDbImpl} {xs : List Indexed}
    (onDisk : OnDisk db.files db.ssTableIndexQueue.queue xs) (key : StdString) :
    SSTableIndexQueue.answer cfg db key = .ok (lookup (tablesOf xs) ⟨key⟩) := by
  obtain ⟨ys, run, _⟩ := SSTableIndexQueue.get_spec cfg onDisk key
  rw [SSTableIndexQueue.answer, run]

/-- Two queues answer alike when their tables do. -/
theorem SSTableIndexQueue.answers_iff (cfg : Config) {db other : ProjectDbImpl} {xs ys : List Indexed}
    (first : OnDisk db.files db.ssTableIndexQueue.queue xs)
    (second : OnDisk other.files other.ssTableIndexQueue.queue ys) :
    (∀ key, SSTableIndexQueue.answer cfg db key = SSTableIndexQueue.answer cfg other key) ↔
      ∀ key, lookup (tablesOf xs) key = lookup (tablesOf ys) key := by
  constructor
  · intro same key
    have here := same key.key
    rw [answer_eq cfg first, answer_eq cfg second] at here
    exact Except.ok.inj here
  · intro same key
    rw [answer_eq cfg first, answer_eq cfg second, same]

namespace ProjectDbImpl

variable {cfg : Config} {fmt : LogFormat} {permit : List SSTable → Nat → Prop} {v : View}
  {start db t updated : ProjectDbImpl} {job : CompactionJob} {I : Install} {k i : Nat}

/-- The directory that an installation leaves when it stops at a stage. -/
theorem Compacted.left_disk (compacted : Compacted cfg v db job I) (inv : Inv cfg permit v db) (settled : v.Settled)
    (taken : Taken v (2 ^ 31) t) (stage : I.Stage db.files k i t.files) :
    Disk t.files ((I.left k i).map fun x => (counterOf x, x.2)) v.logs := by
  have shelf : v.shelf = I.before := by rw [View.shelf, settled.handed, List.append_nil, compacted.before]
  have sublist := stage.left_names (compacted.named inv)
  have listed : ∀ x ∈ I.left k i, ∃ y ∈ v.shelf, y.1.ssTableFileName = x.1.ssTableFileName := by
    intro x member
    rw [shelf]
    exact mem_namesOf.mp (sublist.subset (mem_namesOf.mpr ⟨x, member, rfl⟩))
  have counters := sublist.map FileName.counter
  rw [← shelf, namesOf, namesOf, List.map_map, List.map_map] at counters
  have low := taken.sstRoom
  have lowLogs := taken.txlRoom
  refine disk_of_elements stage.left_holds (fun x member => ?_) ?_ ?_ taken.logging.files taken.logging.order
    ⟨fun x member => ?_, fun l member => ?_⟩
  · obtain ⟨y, inside, same⟩ := listed x member
    have canonical := inv.shelved.named y inside
    rw [counterOf, same] at canonical
    exact canonical
  · refine stage.left_listed fun name isSst bytes found => ?_
    rw [← shelf]
    exact inv.shelved.listed name isSst bytes found
  · exact (List.pairwise_append.mp taken.flushing.order).1.sublist counters
  · have below := taken.flushing.base (counterOf x)
      (List.mem_append_left _ (counters.subset (List.mem_map_of_mem member)))
    omega
  · have below := taken.logging.base l member
    omega

/-- An installation has stopped after `marked` and `renamed` files, of the
window between the other tables of the queue. -/
structure Stopped (cfg : Config) (db t : ProjectDbImpl) (below window above : List SSTable) (marked renamed : Nat) :
    Prop where
  queue : ∃ xs, OnDisk db.files db.ssTableIndexQueue.queue xs ∧ xs.map Prod.snd = below ++ window ++ above
  start : below.length = db.ssTableIndexQueue.compactionStartIndex
  wide : window.length = cfg.numSSTableToCompact.toNat + 1
  order : renamed = 0 ∨ window.length ≤ marked
  left : ∃ numbered logs, Disk t.files numbered logs ∧
    numbered.map Prod.snd = below ++ leftOfWindow cfg window marked renamed ++ above

/-- The installation that has stopped, at a stage, and the update that runs to
its end. -/
theorem Inv.stopped {merged : List SSTableIndex} {rest : DbProg Unit} (inv : Inv cfg anyCompaction v db)
    (bounded : db.Bounded) (launched : db.ssTableCompactionFuture = some job)
    (finished : job.future = .ready (.ok merged))
    (path : Prog.Reaches (Others cfg anyCompaction) (SSTableIndexQueue.update cfg merged) (db.tookCompaction job) rest t) :
    ∃ I k i updated, Compacted cfg v db job I ∧ job.beginIt = db.ssTableIndexQueue.compactionStartIndex ∧
      (SSTableIndexQueue.update cfg merged).run (db.tookCompaction job) = .ok () updated ∧
      OnDisk updated.files updated.ssTableIndexQueue.queue I.after ∧ I.Stage db.files k i t.files ∧
      Taken v (2 ^ 31) t := by
  obtain ⟨begins, _, positive, _, running | ⟨I, ready, compacted, _⟩⟩ := inv.compacting job launched
  · rw [finished] at running
    contradiction
  · have same : merged = I.merged.map Prod.snd := by
      rw [finished] at ready
      cases ready
      rfl
    subst same
    have named := compacted.named inv
    have safe : (SSTableIndexQueue.update cfg (I.merged.map Prod.snd)).Safe (Others cfg anyCompaction)
        (I.Always db.files (Taken v (2 ^ 31))) (fun _ => False) _ (db.tookCompaction job) :=
      Install.update_safe named (Taken.undisturbed v (2 ^ 31)) compacted.wide positive compacted.nonempty
        (compacted.begin (inv.roomy bounded) begins)
    obtain ⟨taken, k, i, stage⟩ := (safe.reaches path).now
    obtain ⟨_, updated, run, done⟩ := safe.returns
    refine ⟨I, k, i, updated, compacted, begins, run, ?_, stage, taken⟩
    rw [done.queue]
    exact Install.onDisk_after named done.stage

section Crash
variable {files : Files} {tables : List (Nat × SSTable)} {logs : List (Nat × List Byte)} {events : List Event}
  {merged : List SSTableIndex} {rest : DbProg Unit}

/-- When the process stops while a compaction is being installed, the SSTables
that are loaded answer as before or as after the installation exactly if the
tables that are left of the window are enough for it. -/
theorem install_crash (disk : Disk files tables logs) (opened : Opened cfg fmt anyCompaction files start)
    (session : Session cfg fmt anyCompaction start events db) (bounded : db.Bounded)
    (launched : db.ssTableCompactionFuture = some job) (finished : job.future = .ready (.ok merged))
    (path : Prog.Reaches (Others cfg anyCompaction) (SSTableIndexQueue.update cfg merged) (db.tookCompaction job) rest t) :
    ∃ updated, (SSTableIndexQueue.update cfg merged).run (db.tookCompaction job) = .ok () updated ∧
      (LogsLoadBack fmt t → ∀ time ssTableBase transactionLogBase, ssTableBase < 2 ^ 31 → ∃ reopened,
        (init cfg fmt).run (fresh t.files time ssTableBase transactionLogBase) = .ok () reopened) ∧
      ∃ below window above marked renamed, Stopped cfg db t below window above marked renamed ∧
        ∀ reopened, Opened cfg fmt anyCompaction t.files reopened →
          ((∀ key, SSTableIndexQueue.answer cfg reopened key = SSTableIndexQueue.answer cfg db key) ∨
              (∀ key, SSTableIndexQueue.answer cfg reopened key = SSTableIndexQueue.answer cfg updated key) ↔
            Recoverable cfg below window above marked renamed) := by
  obtain ⟨memory, loads⟩ := opened.loads disk
  obtain ⟨xs, _, inv⟩ := opened.on disk loads
  obtain ⟨v, now, settled, _⟩ := session.inv inv (openedView_settled xs logs memory)
  obtain ⟨I, k, i, updated, compacted, begins, run, after, stage, taken⟩ := now.stopped bounded launched finished path
  have left := compacted.left_disk now settled taken stage
  have remaining : ((I.left k i).map fun x => (counterOf x, x.2)).map Prod.snd = I.below.map Prod.snd ++
      leftOfWindow cfg (I.window.map Prod.snd) k i ++ I.above.map Prod.snd := by
    rw [List.map_map, ← Install.left_tables compacted.groups]
    rfl
  have before : v.queue.map Prod.snd = I.below.map Prod.snd ++ I.window.map Prod.snd ++ I.above.map Prod.snd := by
    rw [← compacted.before, Install.before, List.map_append, List.map_append]
  refine ⟨updated, run, fun back time base logBase low =>
      init_returns left (taken.logging.loads taken.flushing back) time low.le logBase, I.below.map Prod.snd, I.window.map Prod.snd, I.above.map Prod.snd, k, i,
    ⟨⟨v.queue, now.onDisk, before⟩, ?_, ?_, ?_, _, v.logs, left, remaining⟩, fun reopened again => ?_⟩
  · rw [List.length_map, compacted.start, begins]
  · rw [List.length_map, compacted.wide]
  · rw [List.length_map]
    exact stage.order
  · obtain ⟨again_memory, reloads⟩ := again.loads left
    obtain ⟨⟨ys, onDisk, same⟩, _⟩ := (again.on left reloads).onDisk
    have found : tablesOf ys = contents (I.below.map Prod.snd ++
        leftOfWindow cfg (I.window.map Prod.snd) k i ++ I.above.map Prod.snd) := by
      rw [same, contents, ← remaining, List.map_map, List.map_map, List.map_map]
      rfl
    have whole : I.after.map Prod.snd = I.below.map Prod.snd ++
        (groupsOfTables cfg (I.window.map Prod.snd)).map mergeGroup ++ I.above.map Prod.snd := by
      rw [Install.after, List.map_append, List.map_append, Install.tables_installed compacted.groups]
    rw [SSTableIndexQueue.answers_iff cfg onDisk now.onDisk, SSTableIndexQueue.answers_iff cfg onDisk after, found,
      tablesOf_eq I.after, tablesOf_eq v.queue, whole, before, Recoverable, interchangeable_iff, interchangeable_iff]
    exact Iff.rfl

end Crash

/-- Every write fills a MemTable, and two SSTables are compacted into one. -/
def installConfig : Config :=
  { Config.default with memTableApproximateMaxSizeInBytes := 1, numSSTableToCompact := 1 }

/-- Two keys in two SSTables, which are compacted. -/
def installScript : List Move :=
  [.call (.set sampleKey oldString), .flush 0, .call (.set otherKey newString), .flush 0, .call (.get sampleKey),
    .compaction]

/-- A script that ends with a compaction to be installed. -/
def playInstall (cfg : Config) (fmt : LogFormat) (moves : List Move) :
    Option (ProjectDbImpl × CompactionJob × List SSTableIndex) := do
  let (_, db) ← play cfg fmt (opened cfg fmt) moves
  let job ← db.ssTableCompactionFuture
  match job.future with
  | .ready (.ok merged) => if db.Bounded then pure (db, job, merged) else none
  | _ => none

theorem playInstall_session {moves : List Move} {merged : List SSTableIndex}
    (played : playInstall cfg fmt moves = some (db, job, merged)) :
    (∃ events, Session cfg fmt anyCompaction (opened cfg fmt) events db) ∧ db.Bounded ∧
      db.ssTableCompactionFuture = some job ∧ job.future = .ready (.ok merged) := by
  simp only [playInstall, Option.bind_eq_bind, Option.bind_eq_some_iff, Prod.exists] at played
  obtain ⟨events, reached, script, other, launched, ready⟩ := played
  cases finished : other.future with
  | running => simp [finished] at ready
  | consumed => simp [finished] at ready
  | ready result =>
    cases result with
    | error e => simp [finished] at ready
    | ok out =>
      simp only [finished] at ready
      split_ifs at ready with bounded
      cases ready
      exact ⟨⟨events, play_session .opened (permitted_of fun _ _ _ => trivial) script⟩, bounded, launched, finished⟩

/-- The installation has marked one of the two tables, and then the process stops. -/
theorem install_crash_sample : ∃ db job merged,
    playInstall installConfig transactionLog installScript = some (db, job, merged) ∧
      ∃ updated below window above marked renamed, Stopped installConfig db
        (Prog.advance 2 (SSTableIndexQueue.update installConfig merged) (db.tookCompaction job)).2
        below window above marked renamed ∧
      ∀ reopened, Opened installConfig transactionLog anyCompaction
          (Prog.advance 2 (SSTableIndexQueue.update installConfig merged) (db.tookCompaction job)).2.files reopened →
        ((∀ key, SSTableIndexQueue.answer installConfig reopened key = SSTableIndexQueue.answer installConfig db key) ∨
            (∀ key, SSTableIndexQueue.answer installConfig reopened key =
              SSTableIndexQueue.answer installConfig updated key) ↔
          Recoverable installConfig below window above marked renamed) := by
  have possible : (playInstall installConfig transactionLog installScript).isSome := by decide +kernel
  obtain ⟨⟨db, job, merged⟩, played⟩ := Option.isSome_iff_exists.mp possible
  obtain ⟨⟨_, session⟩, bounded, launched, finished⟩ := playInstall_session played
  have stops := Prog.reaches_advance (Others installConfig anyCompaction) 2
    (SSTableIndexQueue.update installConfig merged) (db.tookCompaction job)
  obtain ⟨updated, _, _, crash⟩ := install_crash disk_empty opened_opened session bounded launched finished stops
  exact ⟨db, job, merged, played, updated, crash⟩

/-- The states of a crash in the installation: with the compaction to be
installed, with it installed, and loaded after the crash. -/
def playInstallCrash (cfg : Config) (fmt : LogFormat) (moves : List Move) (actions : Nat) :
    Option (ProjectDbImpl × ProjectDbImpl × ProjectDbImpl) := do
  let (db, job, merged) ← playInstall cfg fmt moves
  let (_, updated) ← ((SSTableIndexQueue.update cfg merged).run (db.tookCompaction job)).ok?
  let t := (Prog.advance actions (SSTableIndexQueue.update cfg merged) (db.tookCompaction job)).2
  let (_, reopened) ← ((init cfg fmt).run (fresh t.files 0 0 0)).ok?
  pure (db, updated, reopened)

/-- A key that is found before the installation and after it is lost. -/
theorem install_crash_loses : ∃ events db job merged rest t updated reopened,
    Opened installConfig transactionLog anyCompaction ∅ (opened installConfig transactionLog) ∧
    Session installConfig transactionLog anyCompaction (opened installConfig transactionLog) events db ∧
    db.Bounded ∧ db.ssTableCompactionFuture = some job ∧ job.future = .ready (.ok merged) ∧
    (SSTableIndexQueue.update installConfig merged).run (db.tookCompaction job) = .ok () updated ∧
    Prog.Reaches (Others installConfig anyCompaction) (SSTableIndexQueue.update installConfig merged)
      (db.tookCompaction job) rest t ∧
    Opened installConfig transactionLog anyCompaction t.files reopened ∧
    ¬ (∀ key, SSTableIndexQueue.answer installConfig reopened key = SSTableIndexQueue.answer installConfig db key) ∧
    ¬ ∀ key, SSTableIndexQueue.answer installConfig reopened key =
      SSTableIndexQueue.answer installConfig updated key := by
  have played : (playInstallCrash installConfig transactionLog installScript 2).map (fun states =>
      (SSTableIndexQueue.answer installConfig states.1 sampleKey,
        SSTableIndexQueue.answer installConfig states.2.1 sampleKey,
        SSTableIndexQueue.answer installConfig states.2.2 sampleKey)) =
      some (.ok (some ⟨Value.stringValue, oldString⟩), .ok (some ⟨Value.stringValue, oldString⟩), .ok none) := by decide +kernel
  obtain ⟨states, run, answers⟩ := Option.map_eq_some_iff.mp played
  obtain ⟨before, rest⟩ := Prod.mk.inj answers
  obtain ⟨after, lost⟩ := Prod.mk.inj rest
  simp only [playInstallCrash, Option.bind_eq_bind, Option.bind_eq_some_iff, Prod.exists, EStateM.Result.ok?_eq_some,
    Option.pure_def, Option.some.injEq] at run
  obtain ⟨db, job, merged, install, _, updated, complete, _, reopened, again, rfl⟩ := run
  obtain ⟨⟨events, session⟩, bounded, launched, finished⟩ := playInstall_session install
  have stops := Prog.reaches_advance (Others installConfig anyCompaction) 2
    (SSTableIndexQueue.update installConfig merged) (db.tookCompaction job)
  refine ⟨events, db, job, merged, _, _, updated, reopened, opened_opened, session, bounded, launched, finished,
    complete, stops, ⟨0, 0, 0, by decide, by decide, Prog.reaches_returns again⟩, fun same => ?_, fun same => ?_⟩
  · have here := same sampleKey
    rw [lost, before] at here
    cases here
  · have here := same sampleKey
    rw [lost, after] at here
    cases here

end ProjectDbImpl
end ProjectDb
