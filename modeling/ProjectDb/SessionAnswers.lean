import ProjectDb.Session
import ProjectDb.CompactionAnswers

namespace ProjectDb

/-- What a database stands for to its callers. -/
abbrev KeyMap := StdString → Option StdString

namespace KeyMap
open ProjectDbImpl (Call)

def empty : KeyMap := fun _ => none

/-- The map after a call. -/
def after (m : KeyMap) : Call → KeyMap
  | .get _ => m
  | .set key value => Function.update m key (some value)
  | .remove key => Function.update m key none

def answer (m : KeyMap) : Call → Option StdString
  | .get key => m key
  | _ => none

/-- What a map answers to calls that are made one after the other. -/
def answers (m : KeyMap) : List Call → List (Option StdString)
  | [] => []
  | call :: calls => m.answer call :: (m.after call).answers calls

theorem answers_concat (m : KeyMap) (calls : List Call) (call : Call) :
    m.answers (calls ++ [call]) = m.answers calls ++ [(calls.foldl after m).answer call] := by
  induction calls generalizing m with
  | nil => rfl
  | cons first calls ih =>
    change m.answer first :: (m.after first).answers (calls ++ [call]) = _
    rw [ih]
    rfl

end KeyMap

namespace ProjectDbImpl

/-- A compaction of the window from `start` on brings no deleted key back. -/
def Harmless (cfg : Config) (tables : List SSTable) (start : Nat) : Prop :=
  ∀ key value, lookup (tables.map fun s => s.table) key = some value → value.isTombstoneValue = true →
    ¬ Resurfaces Value.isTombstoneValue
      (groupHistories (compactionGroups cfg tables start (cfg.numSSTableToCompact.toNat + 1)) key)

variable {cfg : Config} {fmt : LogFormat} {permit : List SSTable → Nat → Prop} {v w : View}
  {db next start : ProjectDbImpl}

/-- A harmless compaction changes no answer. -/
theorem lookup_harmless {tables : List SSTable} {window : Nat} (harmless : Harmless cfg tables window) (key : Key) :
    (lookup ((compactionGroups cfg tables window (cfg.numSSTableToCompact.toNat + 1)).map
        fun group => (mergeGroup group).table) key).bind Value.underlyingValue =
      (lookup (tables.map fun s => s.table) key).bind Value.underlyingValue := by
  have flat : (compactionGroups cfg tables window (cfg.numSSTableToCompact.toNat + 1)).flatten.map
      (fun s => s.table) = tables.map fun s => s.table := by rw [compactionGroups_flatten]
  cases found : lookup (tables.map fun s => s.table) key with
  | none => rw [lookup_groups_none ((congrArg (lookup · key) flat).trans found)]
  | some value =>
    cases dead : value.isTombstoneValue with
    | false => rw [lookup_groups_live ((congrArg (lookup · key) flat).trans found) dead]
    | true =>
      have gone := (lookup_groups_deleted _ key).mpr (harmless key value found dead)
      rw [Option.bind_some, Value.underlyingValue_eq_none.mpr dead, Option.bind_eq_none_iff]
      exact fun other same => Value.underlyingValue_eq_none.mpr (gone other same)

/-- Only the keys of the tables can come back. -/
theorem harmless_iff {tables : List SSTable} {start : Nat} : Harmless cfg tables start ↔
    ∀ key ∈ tables.flatMap fun s => s.table.entries.map Prod.fst,
      (lookup (tables.map fun s => s.table) key).any Value.isTombstoneValue = true →
        (lookup ((compactionGroups cfg tables start (cfg.numSSTableToCompact.toNat + 1)).map
          fun group => (mergeGroup group).table) key).all Value.isTombstoneValue = true := by
  constructor
  · intro harmless key _ deleted
    obtain ⟨value, found, dead⟩ := Option.any_eq_true _ _ |>.mp deleted
    exact Option.all_eq_true _ _ |>.mpr ((lookup_groups_deleted _ key).mpr (harmless key value found dead))
  · intro harmless key value found dead
    have newer : newest (fun (s : SSTable) k => s.table.find? k) tables key = some value := by
      rw [← found, lookup, newest, newest, List.map_map]
      rfl
    obtain ⟨s, member, answer⟩ := newest_mem (fun (s : SSTable) k => s.table.find? k) newer
    have listed : key ∈ tables.flatMap fun s => s.table.entries.map Prod.fst :=
      List.mem_flatMap.mpr ⟨s, member, List.mem_map.mpr ⟨_, SortedMap.find?_eq_some.mp answer, rfl⟩⟩
    have kept := harmless key listed (by rw [found]; exact dead)
    exact (lookup_groups_deleted _ key).mp (Option.all_eq_true _ _ |>.mp kept)

instance (cfg : Config) (tables : List SSTable) (start : Nat) : Decidable (Harmless cfg tables start) :=
  decidable_of_iff _ harmless_iff.symm

theorem Carried.answer (carried : Carried cfg (Harmless cfg) v w) : w.answer = v.answer := by
  funext key
  rw [View.answer, View.answer]
  rcases carried.layers with same | ⟨window, _, harmless, layers⟩
  · rw [same]
  · rw [layers, View.layers, lookup_append, lookup_append, tablesOf_eq]
    cases lookup v.memory ⟨key⟩ with
    | none => exact lookup_harmless harmless ⟨key⟩
    | some value => rfl

/-- A call answers as the map does, and leaves what the map has after it. -/
theorem Called.refines {call : Call} {answer : Option StdString}
    (called : Called cfg (Harmless cfg) v w call answer) :
    answer = KeyMap.answer v.answer call ∧ w.answer = KeyMap.after v.answer call := by
  obtain ⟨mid, carried, rfl, lookups⟩ := called.effect
  rw [← carried.answer]
  have left (key : StdString) : w.answer key =
      (call.leaves ⟨key⟩ (lookup mid.layers ⟨key⟩)).bind Value.underlyingValue := by
    rw [View.answer, lookups]
  cases call with
  | get key => exact ⟨rfl, funext left⟩
  | set key value =>
    refine ⟨rfl, funext fun other => ?_⟩
    rw [left, KeyMap.after, Function.update_apply]
    simp only [Call.leaves, Call.operation, Operation.key, Key.mk.injEq]
    by_cases same : other = key
    · rw [if_pos same, if_pos same]
      rfl
    · rw [if_neg same, if_neg same]
      rfl
  | remove key =>
    refine ⟨rfl, funext fun other => ?_⟩
    rw [left, KeyMap.after, Function.update_apply]
    simp only [Call.leaves, Call.operation, Operation.key, Key.mk.injEq]
    by_cases same : other = key
    · rw [if_pos same, if_pos same]
      rfl
    · rw [if_neg same, if_neg same]
      rfl

/-- In every state of a session whose compactions are harmless, the database
stands for the map that the calls have made, and it has answered as the map does. -/
theorem Session.refines {events : List Event} (session : Session cfg fmt (Harmless cfg) start events db)
    (inv : Inv cfg (Harmless cfg) v start) (settled : v.Settled) :
    ∃ w, (Inv cfg (Harmless cfg) w db ∧ w.Settled) ∧
      w.answer = (events.map Prod.fst).foldl KeyMap.after v.answer ∧
      events.map Prod.snd = (KeyMap.answers v.answer (events.map Prod.fst)).map Except.ok := by
  induction session with
  | opened => exact ⟨v, ⟨inv, settled⟩, rfl, rfl⟩
  | job _ step ih =>
    obtain ⟨w, ⟨now, still⟩, holds⟩ := ih
    exact ⟨w, ⟨now.others step, still⟩, holds⟩
  | returned _ bounded path ih =>
    obtain ⟨w, ⟨now, still⟩, stands, answered⟩ := ih
    obtain ⟨x, called, later⟩ := now.returned still bounded path
    obtain ⟨answer, after⟩ := called.refines
    refine ⟨x, ⟨later, called.settled⟩, ?_, ?_⟩
    · rw [after, stands, List.map_append, List.foldl_append]
      rfl
    · rw [List.map_append, List.map_append, answered, List.map_singleton, List.map_singleton, KeyMap.answers_concat,
        List.map_append, ← stands, answer]
      rfl
  | threw _ bounded path ih =>
    obtain ⟨w, ⟨now, still⟩, _⟩ := ih
    exact (now.notThrown still bounded path).elim

theorem disk_empty : Disk ∅ [] [] where
  ssTables n _ bytes := by simp
  small := by simp
  ssTableOrder := .nil
  transactionLogs n _ bytes := by simp
  transactionLogOrder := .nil
  counters := by simp

section Scripts

/-- A move of a script: a call is made from beginning to end, or a job finishes. -/
inductive Move
  | call (request : Call)
  | flush (job : Nat)
  | compaction
  deriving DecidableEq

variable (cfg fmt)

def finishFlush (db : ProjectDbImpl) (i : Nat) : Option ProjectDbImpl := do
  let job ← db.flushToDiskFutures[i]?
  match job.future with
  | .running =>
    let (index, files) ← (writeSSTable cfg.ssTableIndexBlockSizeInBytes (db.flushedTable job) job.fileName db.files).ok?
    pure { db with
      files := files
      flushToDiskFutures := db.flushToDiskFutures.take i ++
        { job with future := .ready (.ok index) } :: db.flushToDiskFutures.drop (i + 1) }
  | _ => none

def finishCompaction (db : ProjectDbImpl) : Option ProjectDbImpl := do
  let job ← db.ssTableCompactionFuture
  match job.future with
  | .running =>
    let (merged, files) ← (SSTableIndexQueue.compact cfg job db).ok?
    pure { db with files := files, ssTableCompactionFuture := some { job with future := .ready (.ok merged) } }
  | _ => none

def Move.play (db : ProjectDbImpl) : Move → Option (List Event × ProjectDbImpl)
  | call request =>
    if db.Bounded then
      match (request.prog cfg fmt).run db with
      | .ok answer next => some ([(request, .ok answer)], next)
      | .error e next => some ([(request, .error e)], next)
    else none
  | flush i => (finishFlush cfg db i).map fun next => ([], next)
  | compaction => (finishCompaction cfg db).map fun next => ([], next)

def play (db : ProjectDbImpl) : List Move → Option (List Event × ProjectDbImpl)
  | [] => some ([], db)
  | move :: moves => do
    let (events, next) ← move.play cfg fmt db
    let (more, last) ← play next moves
    pure (events ++ more, last)

/-- The tables in the files of the queue. -/
def ssTablesOnDisk (db : ProjectDbImpl) : List SSTable :=
  db.ssTableIndexQueue.queue.filterMap fun index =>
    (loadSSTable cfg.ssTableIndexBlockSizeInBytes index.ssTableFileName none db.files).ok?.map fun loaded => loaded.1.1

/-- All compactions of a script are permitted when they are played. -/
def Permitted (permit : List SSTable → Nat → Prop) (db : ProjectDbImpl) : List Move → Prop
  | [] => True
  | move :: moves =>
    (move = .compaction → permit (ssTablesOnDisk cfg db) db.ssTableIndexQueue.compactionStartIndex) ∧
      ∀ played ∈ move.play cfg fmt db, Permitted permit played.2 moves

instance decidablePermitted (permit : List SSTable → Nat → Prop) [∀ tables start, Decidable (permit tables start)] :
    ∀ (db : ProjectDbImpl) (moves : List Move), Decidable (Permitted cfg fmt permit db moves)
  | _, [] => inferInstanceAs (Decidable True)
  | db, move :: moves =>
    have (played : List Event × ProjectDbImpl) : Decidable (Permitted cfg fmt permit played.2 moves) :=
      decidablePermitted permit played.2 moves
    inferInstanceAs (Decidable ((move = .compaction → _) ∧ ∀ played ∈ move.play cfg fmt db, _))

/-- A database that has just been opened on an empty directory. -/
def opened : ProjectDbImpl :=
  match (init cfg fmt).run (fresh ∅ 0 0 0) with
  | .ok _ db => db
  | .error _ db => db

variable {cfg fmt}

theorem finishFlush_step {i : Nat} (run : finishFlush cfg db i = some next) : JobStep cfg .flush db next := by
  simp only [finishFlush, Option.bind_eq_bind, Option.bind_eq_some_iff] at run
  obtain ⟨job, listed, run⟩ := run
  obtain ⟨inside, here⟩ := List.getElem?_eq_some_iff.mp listed
  have split : db.flushToDiskFutures = db.flushToDiskFutures.take i ++ job :: db.flushToDiskFutures.drop (i + 1) := by
    rw [← here, List.getElem_cons_drop, List.take_append_drop]
  cases running : job.future with
  | running =>
    simp only [running, Option.bind_eq_some_iff, Prod.exists, EStateM.Result.ok?_eq_some, Option.pure_def,
      Option.some.injEq] at run
    obtain ⟨index, files, write, rfl⟩ := run
    exact .flush split running write
  | ready => simp [running] at run
  | consumed => simp [running] at run

theorem finishCompaction_step (run : finishCompaction cfg db = some next) : JobStep cfg .compaction db next := by
  simp only [finishCompaction, Option.bind_eq_bind, Option.bind_eq_some_iff] at run
  obtain ⟨job, launched, run⟩ := run
  cases running : job.future with
  | running =>
    simp only [running, Option.bind_eq_some_iff, Prod.exists, EStateM.Result.ok?_eq_some, Option.pure_def,
      Option.some.injEq] at run
    obtain ⟨merged, files, merge, rfl⟩ := run
    exact .compaction launched running merge
  | ready => simp [running] at run
  | consumed => simp [running] at run

theorem ssTablesOnDisk_eq {xs : List Indexed} (onDisk : OnDisk db.files db.ssTableIndexQueue.queue xs) :
    ssTablesOnDisk cfg db = xs.map Prod.snd := by
  rw [ssTablesOnDisk, ← onDisk.queue, List.filterMap_map, ← List.filterMap_eq_map]
  refine List.filterMap_congr fun x member => ?_
  have holds := onDisk.holds x member
  simp only [Function.comp_apply, loadSSTable_spec cfg.ssTableIndexBlockSizeInBytes holds.file holds.small]
  rfl

theorem permitted_of {moves : List Move} (allowed : .compaction ∈ moves → ∀ tables start, permit tables start) :
    Permitted cfg fmt permit db moves := by
  induction moves generalizing db with
  | nil => trivial
  | cons move moves ih =>
    exact ⟨fun same => allowed (same ▸ List.mem_cons_self) _ _,
      fun _ _ => ih fun member => allowed (List.mem_cons_of_mem _ member)⟩

theorem Move.play_session {move : Move} {events more : List Event} (session : Session cfg fmt permit start events db)
    (allowed : move = .compaction → permit (ssTablesOnDisk cfg db) db.ssTableIndexQueue.compactionStartIndex)
    (run : move.play cfg fmt db = some (more, next)) : Session cfg fmt permit start (events ++ more) next := by
  cases move with
  | call request =>
    rw [Move.play] at run
    split_ifs at run with bounded
    cases result : (request.prog cfg fmt).run db with
    | ok answer t =>
      rw [result] at run
      cases run
      exact .returned session bounded (Prog.reaches_returns result)
    | error e t =>
      rw [result] at run
      cases run
      exact .threw session bounded (Prog.reaches_throws result)
  | flush i =>
    obtain ⟨t, finish, same⟩ := Option.map_eq_some_iff.mp run
    cases same
    rw [List.append_nil]
    exact .job session ⟨.flush, finishFlush_step finish, fun other => by cases other⟩
  | compaction =>
    obtain ⟨t, finish, same⟩ := Option.map_eq_some_iff.mp run
    cases same
    rw [List.append_nil]
    refine .job session ⟨.compaction, finishCompaction_step finish, fun _ xs onDisk => ?_⟩
    rw [← ssTablesOnDisk_eq onDisk]
    exact allowed rfl

/-- A script that can be played is a session. -/
theorem play_session {moves : List Move} {events more : List Event}
    (session : Session cfg fmt permit start events db) (permitted : Permitted cfg fmt permit db moves)
    (run : play cfg fmt db moves = some (more, next)) : Session cfg fmt permit start (events ++ more) next := by
  induction moves generalizing db events more with
  | nil =>
    cases run
    rwa [List.append_nil]
  | cons move moves ih =>
    simp only [play, Option.bind_eq_bind, Option.bind_eq_some_iff, Prod.exists, Option.pure_def, Option.some.injEq,
      Prod.mk.injEq] at run
    obtain ⟨here, mid, first, later, last, rest, rfl, rfl⟩ := run
    have moved := Move.play_session session permitted.1 first
    rw [← List.append_assoc]
    exact ih moved (permitted.2 _ first) rest

theorem opened_opened : Opened cfg fmt permit ∅ (opened cfg fmt) := by
  refine ⟨0, 0, 0, by decide, by decide, ?_⟩
  obtain ⟨db, run⟩ : ∃ db, (init cfg fmt).run (fresh ∅ 0 0 0) = .ok () db :=
    init_returns disk_empty .nil 0 (Nat.zero_le _) 0
  rw [opened, run]
  exact Prog.reaches_returns run

end Scripts

/-- A database that is opened on an empty directory answers as a map does, as
long as every compaction that finishes is harmless. -/
theorem session_answers {events : List Event} (opened : Opened cfg fmt (Harmless cfg) ∅ start)
    (session : Session cfg fmt (Harmless cfg) start events db) :
    events.map Prod.snd = (KeyMap.empty.answers (events.map Prod.fst)).map Except.ok := by
  obtain ⟨xs, none, inv⟩ := opened.on disk_empty .nil
  obtain ⟨_, _, _, answered⟩ := session.refines inv (openedView_settled xs [] [])
  cases xs with
  | nil => exact answered
  | cons => contradiction

/-- Every write fills a MemTable, and four SSTables are compacted in groups of two. -/
def sessionConfig : Config := { sampleConfig with memTableApproximateMaxSizeInBytes := 1 }

def oldString : StdString := oldValue.value
def newString : StdString := newValue.value

/-- Four SSTables, the third of which removes a key of the first, are compacted. -/
def removingScript (last : Call) : List Move :=
  [.call (.set sampleKey oldString), .flush 0, .call (.set otherKey newString), .flush 0, .call (.remove sampleKey),
    .flush 0, .call last, .flush 0, .call (.get sampleKey), .compaction, .call (.get sampleKey)]

/-- What is removed stays in the second of the two groups, and harms nothing. -/
def harmlessScript : List Move := removingScript (.set otherKey oldString)

theorem session_answers_sample : ∃ events db,
    Session sessionConfig transactionLog (Harmless sessionConfig) (opened sessionConfig transactionLog) events db ∧
      (db.ssTableIndexQueue.queue.length = 2 ∧ db.ssTableCompactionFuture.isNone) ∧
      events.map Prod.snd = [.ok none, .ok none, .ok none, .ok none, .ok none, .ok none, .ok (some oldString)] := by
  have played : (play sessionConfig transactionLog (opened sessionConfig transactionLog)
      (harmlessScript ++ [.call (.get otherKey)])).map (fun result => ((result.2.ssTableIndexQueue.queue.length,
        result.2.ssTableCompactionFuture.isNone), result.1.map Prod.fst)) =
      some ((2, true), [.set sampleKey oldString, .set otherKey newString, .remove sampleKey, .set otherKey oldString,
        .get sampleKey, .get sampleKey, .get otherKey]) := by decide +kernel
  obtain ⟨⟨events, db⟩, run, known⟩ := Option.map_eq_some_iff.mp played
  obtain ⟨installed, calls⟩ := Prod.mk.inj known
  have session : Session sessionConfig transactionLog (Harmless sessionConfig)
      (opened sessionConfig transactionLog) events db := play_session .opened (by decide +kernel) run
  refine ⟨events, db, session, Prod.mk.inj installed, ?_⟩
  rw [session_answers opened_opened session, calls]
  decide +kernel

/-- The history of a key in four SSTables, which are then compacted. -/
def resurrectingScript : List Move :=
  [.call (.set sampleKey oldString), .flush 0, .call (.set otherKey newString), .flush 0,
    .call (.set sampleKey newString), .flush 0, .call (.remove sampleKey), .flush 0, .call (.get sampleKey),
    .compaction, .call (.get sampleKey)]

/-- Once the compaction is installed, the removed key has its first value again. -/
theorem session_resurrects : ∃ events db, Opened sessionConfig transactionLog anyCompaction ∅
      (opened sessionConfig transactionLog) ∧
    Session sessionConfig transactionLog anyCompaction (opened sessionConfig transactionLog) events db ∧
    events = [(.set sampleKey oldString, .ok none), (.set otherKey newString, .ok none),
      (.set sampleKey newString, .ok none), (.remove sampleKey, .ok none), (.get sampleKey, .ok none),
      (.get sampleKey, .ok (some oldString))] ∧
    events.map Prod.snd ≠ (KeyMap.empty.answers (events.map Prod.fst)).map Except.ok := by
  have played : (play sessionConfig transactionLog (opened sessionConfig transactionLog) resurrectingScript).map
      Prod.fst = some [(.set sampleKey oldString, .ok none), (.set otherKey newString, .ok none),
      (.set sampleKey newString, .ok none), (.remove sampleKey, .ok none), (.get sampleKey, .ok none),
      (.get sampleKey, .ok (some oldString))] := by decide +kernel
  obtain ⟨⟨events, db⟩, run, same⟩ := Option.map_eq_some_iff.mp played
  have session : Session sessionConfig transactionLog anyCompaction (opened sessionConfig transactionLog)
      events db := play_session .opened (permitted_of fun _ _ _ => trivial) run
  refine ⟨events, db, opened_opened, session, same, ?_⟩
  change events = _ at same
  rw [same]
  decide +kernel

end ProjectDbImpl
end ProjectDb
