import ProjectDb.WriteAhead
import ProjectDb.TransactionLogGrammar
import ProjectDb.StoreRuns
import ProjectDb.Foundation.Appending

namespace ProjectDb

open OStream
open ProjectDbImpl (Call Event)

section Appending

theorem serializeStringTo_appends (s : StdString) : Appends (serializeStringTo s) (serializeString s) id :=
  (Appends.put _ _).bind fun _ => Appends.forM (fun _ => .put _ _) s.bytes

theorem writeTo_appends (op : Operation) :
    Appends (TransactionLogWritter.writeTo op) (TransactionLogWritter.record op) OStream.flush := by
  cases op with
  | set key value =>
    have last := (serializeStringTo_appends value).bind fun _ => Appends.silently OStream.flush
    rw [List.append_nil] at last
    exact (Appends.put _ _).bind fun _ => (serializeStringTo_appends key).bind fun _ => last
  | remove key =>
    have last := (serializeStringTo_appends key).bind fun _ => Appends.silently OStream.flush
    rw [List.append_nil] at last
    exact (Appends.put _ _).bind fun _ => last

end Appending

namespace LoggedQueue

/-- Calls on a queue, each of which returns or throws; in between the oldest MemTable is
dropped, while there are newer ones. -/
inductive Run (cfg : Config) (first : LoggedQueue) : List Event → LoggedQueue → Prop
  | start : Run cfg first [] first
  | returned {events : List Event} {self after : LoggedQueue} {call : Call} {op : Operation} : Run cfg first events self →
      call.operation = some op → write cfg op self = .ok () after → Run cfg first (events ++ [(call, .ok none)]) after
  | threw {events : List Event} {self after : LoggedQueue} {call : Call} {op : Operation} {e : Exn} :
      Run cfg first events self → call.operation = some op → write cfg op self = .error e after →
      Run cfg first (events ++ [(call, .error e)]) after
  | popped {events : List Event} {self : LoggedQueue} {oldest : LoggedTable} {newer : List LoggedTable} :
      Run cfg first events self → self.queue = oldest :: newer → newer ≠ [] →
      Run cfg first events { self with queue := newer }

/-- The store of the MemTables that a queue starts with. -/
def atStart (first : LoggedQueue) : Store := ⟨[], 0, first.queue.map fun e => ⟨e.log.file, e.table, []⟩⟩

/-- Behind `base` a log has the records of `ops`, and its stream, if it has failed, was interrupted
in those of `part`: `sent` of them was in the file before, and `held` was in the buffer. -/
structure Stopped (base : List Byte) (ops part : List Operation) (sent held : List Byte) (log : OStream) : Prop where
  within : sent ++ held <+: transactionLog.file part
  log : Interrupted (base ++ transactionLog.file ops ++ sent) held log

/-- The log of a MemTable has all its writes, or all but the newest and a part of it, or all and
a part of a write that is `torn`; on a working stream it has the writes. -/
structure Holds (torn : List Operation) (l : Layer) (e : LoggedTable) : Prop where
  table : e.table = l.current
  whole : e.log.failed = false → torn = [] ∧ e.log.buffer = [] ∧ e.log.file = l.contents transactionLog
  stopped : ∃ ops part more sent held, (l.writes ++ torn = ops ++ (part ++ more) ∧ l.writes.dropLast <+: ops ∧
    part.length ≤ 1) ∧ Stopped l.log ops part sent held e.log

/-- All MemTables of a queue with their logs; what is torn is in the newest one. -/
def NewestTorn (R : List Operation → Layer → LoggedTable → Prop) (torn : List Operation) (layers : List Layer)
    (queue : List LoggedTable) : Prop :=
  ∃ ls l es e, layers = ls ++ [l] ∧ queue = es ++ [e] ∧ List.Forall₂ (R []) ls es ∧ R torn l e

abbrev Mirrors (torn : List Operation) (layers : List Layer) (queue : List LoggedTable) : Prop :=
  NewestTorn Holds torn layers queue

variable {cfg : Config} {op : Operation} {torn refused : List Operation} {l : Layer} {e : LoggedTable} {log : OStream}
  {first self after : LoggedQueue} {s : Store} {events : List Event}

section Logs

theorem file_mono {ops more : List Operation} (fewer : ops <+: more) :
    transactionLog.file ops <+: transactionLog.file more := by
  obtain ⟨rest, rfl⟩ := fewer
  rw [LogFormat.file, LogFormat.file, List.flatMap_append]
  exact List.prefix_append _ _

theorem contents_mono (l : Layer) {ops more : List Operation} (fewer : ops <+: more) :
    Layer.contents transactionLog { l with writes := ops } <+: Layer.contents transactionLog { l with writes := more } :=
  (List.prefix_append_right_inj _).mpr (file_mono fewer)

/-- All writes are in the log, and nothing else. -/
theorem Stopped.clean (file : log.file = l.contents transactionLog) (clean : log.buffer = []) :
    Stopped l.log l.writes [] [] [] log :=
  ⟨List.prefix_refl _, ⟨0, by simp [file, Layer.contents]⟩, ⟨0, clean⟩⟩

theorem Holds.clean (table : e.table = l.current) (file : e.log.file = l.contents transactionLog)
    (clean : e.log.buffer = []) : Holds [] l e :=
  ⟨table, fun _ => ⟨rfl, clean, file⟩, l.writes, [], [], [], [], ⟨rfl, List.dropLast_prefix _, by simp⟩, .clean file clean⟩

theorem Holds.new (opening : Bool × List Fate) : Holds [] .new ⟨.empty, openLog opening⟩ := .clean rfl rfl rfl

theorem Holds.start (clean : e.log.buffer = []) : Holds [] ⟨e.log.file, e.table, []⟩ e :=
  .clean rfl (List.append_nil _).symm clean

/-- A log whose stream fails in a record has the earlier ones. -/
theorem Holds.interrupted (holds : Holds torn l e) (working : e.log.failed = false)
    (adds : Adds (TransactionLogWritter.record op) e.log log) (failed : log.failed = true) :
    ∃ sent held, Stopped l.log l.writes [op] sent held log := by
  obtain ⟨_, clean, file⟩ := holds.whole working
  obtain ⟨sent, held, ⟨⟨behind, rfl⟩, within⟩, interrupted⟩ := adds.broken failed
  rw [written, clean, List.append_nil, List.append_assoc, List.prefix_append_right_inj] at within
  refine ⟨behind, held, ?_, ?_⟩
  · rw [LogFormat.file, List.flatMap_singleton]
    exact within
  · rw [file, Layer.contents] at interrupted
    exact interrupted

/-- A write that returns has found a working stream. -/
theorem Holds.returned (holds : Holds torn l e) {after : OStream}
    (run : TransactionLogWritter.writeTo op e.log = .ok () after) :
    torn = [] ∧ Holds [] (l.write op) ⟨op.apply e.table, after⟩ := by
  by_cases failed : e.log.failed = true
  · obtain ⟨thrown, stuck⟩ := writeTo_stuck op e.log failed
    rw [stuck] at run
    cases run
  · have working : e.log.failed = false := by simpa using failed
    obtain ⟨none, clean, file⟩ := holds.whole working
    rcases writeTo_appends op e.log working with ⟨_, there, run', adds, still⟩ | ⟨thrown, left, run', _, _⟩
    · rw [run'] at run
      cases run
      have table : op.apply e.table = (l.write op).current := by rw [Layer.current_write, holds.table]
      by_cases broken : there.flush.failed = true
      · obtain ⟨sent, held, stopped⟩ := holds.interrupted working adds.flush broken
        have earlier : (l.write op).writes.dropLast = l.writes := List.dropLast_concat ..
        refine ⟨none, table, fun flushed => ?_, l.writes, [op], [], sent, held,
          ⟨List.append_nil _, by rw [earlier], le_rfl⟩, stopped⟩
        rw [broken] at flushed
        contradiction
      · have flushed : there.flush.failed = false := by simpa using broken
        have all := adds.flush.whole flushed
        rw [written, flush_empties flushed, List.append_nil, written, clean, List.append_nil, file] at all
        exact ⟨none, .clean table (by rw [all, Layer.contents_write]; rfl) (flush_empties flushed)⟩
    · rw [run'] at run
      cases run

/-- A write that throws leaves a failed stream, with a part of its record at most if it is the first. -/
theorem Holds.threw (holds : Holds (refused.take 1) l e) {thrown : Exn}
    (run : TransactionLogWritter.writeTo op e.log = .error thrown log) :
    Holds ((refused ++ [op]).take 1) l { e with log := log } := by
  by_cases failed : e.log.failed = true
  · obtain ⟨_, stuck⟩ := writeTo_stuck op e.log failed
    rw [stuck] at run
    cases run
    obtain ⟨ops, part, more, sent, held, ⟨split, enough, short⟩, stopped⟩ := holds.stopped
    obtain ⟨later, longer⟩ : refused.take 1 <+: (refused ++ [op]).take 1 := (List.prefix_append refused [op]).take 1
    refine ⟨holds.table, fun working => ?_, ops, part, more ++ later, sent, held, ⟨?_, enough, short⟩, stopped⟩
    · rw [failed] at working
      contradiction
    · rw [← longer, ← List.append_assoc, split]
      simp only [List.append_assoc]
  · have working : e.log.failed = false := by simpa using failed
    obtain ⟨none, _⟩ := holds.whole working
    obtain rfl : refused = [] := by simpa using none
    rcases writeTo_appends op e.log working with ⟨_, there, run', _, _⟩ | ⟨_, left, run', adds, broken⟩
    · rw [run'] at run
      cases run
    · rw [run'] at run
      cases run
      obtain ⟨sent, held, stopped⟩ := holds.interrupted working adds broken
      refine ⟨holds.table, fun still => ?_, l.writes, [op], [], sent, held,
        ⟨rfl, List.dropLast_prefix _, le_rfl⟩, stopped⟩
      rw [broken] at still
      contradiction

/-- What is in the file of a log. -/
theorem Holds.content (holds : Holds torn l e) :
    Layer.contents transactionLog { l with writes := l.writes.dropLast } <+: e.log.file ∧
      e.log.file <+: Layer.contents transactionLog { l with writes := l.writes ++ torn } := by
  obtain ⟨ops, part, more, sent, held, ⟨split, enough, _⟩, within, ⟨reached, file⟩, _⟩ := holds.stopped
  have fewer : ops ++ part <+: l.writes ++ torn := by
    rw [split, ← List.append_assoc]
    exact List.prefix_append _ _
  have stretch : sent ++ held.take reached <+: transactionLog.file part :=
    ((List.prefix_append_right_inj _).mpr (List.take_prefix _ _)).trans within
  have upTo : e.log.file <+: Layer.contents transactionLog { l with writes := ops ++ part } := by
    have parts : transactionLog.file (ops ++ part) = transactionLog.file ops ++ transactionLog.file part :=
      List.flatMap_append
    rw [file, Layer.contents, parts, List.append_assoc, List.append_assoc, List.prefix_append_right_inj]
    exact (List.prefix_append_right_inj _).mpr stretch
  refine ⟨(contents_mono l enough).trans ?_, upTo.trans (contents_mono l fewer)⟩
  rw [file, Layer.contents, List.append_assoc]
  exact List.prefix_append _ _

/-- What closing the stream of a log comes to: behind what is in the file, bytes of the record
in which the stream has failed follow from where its buffer began. -/
def Closes (torn : List Operation) (l : Layer) (e : LoggedTable) : Prop :=
  ∃ ops part more sent held reached again, (l.writes ++ torn = ops ++ (part ++ more) ∧ l.writes.dropLast <+: ops ∧
    part.length ≤ 1 ∧ sent ++ held <+: transactionLog.file part) ∧
    e.log.file = l.log ++ transactionLog.file ops ++ sent ++ held.take reached ∧
    e.log.close.file = e.log.file ++ held.take again

theorem Holds.closes (holds : Holds torn l e) : Closes torn l e := by
  obtain ⟨ops, part, more, sent, held, ⟨split, enough, short⟩, within, interrupted⟩ := holds.stopped
  obtain ⟨reached, file⟩ := interrupted.file
  obtain ⟨again, close⟩ := interrupted.close
  exact ⟨ops, part, more, sent, held, reached, again, ⟨split, enough, short, within⟩, file, close⟩

end Logs

section Calls
variable {es : List LoggedTable}

theorem prepare_some (some : self.queue ≠ []) : self.prepare = self := by
  rw [prepare, if_neg (by simpa using some)]

theorem write_ok (queue : self.prepare.queue = es ++ [e]) {a : Unit}
    (wrote : TransactionLogWritter.writeTo op e.log = .ok a log) : write cfg op self =
      .ok () ((self.prepare.replaceLast ⟨op.apply e.table, log⟩).tryLaunchFlushToDisk cfg (op.apply e.table)) := by
  have newest : self.prepare.queue.getLast? = some e := by rw [queue, List.getLast?_concat]
  simp only [write, newest, wrote]

theorem write_error (queue : self.prepare.queue = es ++ [e]) {thrown : Exn}
    (wrote : TransactionLogWritter.writeTo op e.log = .error thrown log) :
    write cfg op self = .error thrown (self.prepare.replaceLast { e with log := log }) := by
  have newest : self.prepare.queue.getLast? = some e := by rw [queue, List.getLast?_concat]
  simp only [write, newest, wrote]

theorem Mirrors.start (clean : ∀ e ∈ first.queue, e.log.buffer = []) :
    Mirrors [] (atStart first).prepare.memTables first.prepare.queue := by
  rcases List.eq_nil_or_concat' first.queue with none | ⟨es, e, queue⟩
  · refine ⟨[], .new, [], ⟨.empty, openLog (first.openings.headD (false, []))⟩, ?_, ?_, .nil, Holds.new _⟩
    · simp [atStart, none, Store.prepare]
    · simp [prepare, none, emplaceNew]
  · refine ⟨es.map fun e => ⟨e.log.file, e.table, []⟩, ⟨e.log.file, e.table, []⟩, es, e, ?_, ?_, ?_, ?_⟩
    · simp [atStart, queue, Store.prepare]
    · rw [prepare_some (by simp [queue]), queue]
    · rw [List.forall₂_map_left_iff, List.forall₂_same]
      exact fun e member => Holds.start (clean e (queue ▸ List.mem_append_left _ member))
    · exact Holds.start (clean e (queue ▸ List.mem_append_right _ (List.mem_singleton_self _)))

theorem Mirrors.nonempty {layers : List Layer} {queue : List LoggedTable} (mirrors : Mirrors torn layers queue) :
    layers ≠ [] ∧ queue ≠ [] := by
  obtain ⟨ls, l, es, e, rfl, rfl, _, _⟩ := mirrors
  exact ⟨by simp, by simp⟩

theorem Mirrors.prepared (mirrors : Mirrors torn s.memTables self.queue) :
    Mirrors torn s.prepare.memTables self.prepare.queue := by
  obtain ⟨some, also⟩ := mirrors.nonempty
  rwa [prepare_some also, Store.prepare, if_neg some]

/-- A MemTable that has become large gets a new one with a new log, in the queue and in the store. -/
theorem Mirrors.rolled (mirrors : Mirrors [] s.memTables (es ++ [e])) (queue : self.queue = es ++ [e]) :
    Mirrors [] (s.roll cfg).memTables (self.tryLaunchFlushToDisk cfg e.table).queue := by
  obtain ⟨ls, l, es', e', layers, same, older, newest⟩ := mirrors
  obtain ⟨rfl, lasts⟩ := List.append_inj' same rfl
  obtain rfl : e = e' := List.singleton_inj.mp lasts
  have last : s.memTables.getLast? = some l := by rw [layers, List.getLast?_concat]
  unfold Store.roll tryLaunchFlushToDisk
  rw [last, Option.any_some, Layer.full, ← newest.table]
  split_ifs with full
  · refine ⟨ls ++ [l], .new, es ++ [e], ⟨.empty, openLog (self.openings.headD (false, []))⟩, ?_, ?_, ?_, Holds.new _⟩
    · rw [layers]
    · rw [emplaceNew, queue]
    · exact List.rel_append older (.cons newest .nil)
  · exact ⟨ls, l, es, e, layers, queue, older, newest⟩

theorem Mirrors.returned (mirrors : Mirrors torn s.prepare.memTables self.prepare.queue) {call : Call}
    (operation : call.operation = some op) (run : write cfg op self = .ok () after) :
    torn = [] ∧ Mirrors [] (s.called cfg call).memTables after.queue := by
  obtain ⟨ls, l, es, e, layers, queue, older, newest⟩ := mirrors
  cases wrote : TransactionLogWritter.writeTo op e.log with
  | error thrown log =>
    rw [write_error queue wrote] at run
    cases run
  | ok a log =>
    rw [write_ok queue wrote] at run
    cases run
    obtain ⟨none, now⟩ := newest.returned wrote
    have appended : (s.prepare.append op).memTables = ls ++ [l.write op] := by
      rw [Store.append, layers]
      simp
    refine ⟨none, ?_⟩
    rw [Store.called, operation]
    exact Mirrors.rolled ⟨ls, _, es, _, appended, rfl, older, now⟩ (replaceLast_queue queue _)

theorem Mirrors.threw (mirrors : Mirrors (refused.take 1) s.prepare.memTables self.prepare.queue) {thrown : Exn}
    (run : write cfg op self = .error thrown after) :
    Mirrors ((refused ++ [op]).take 1) s.prepare.memTables after.queue := by
  obtain ⟨ls, l, es, e, layers, queue, older, newest⟩ := mirrors
  cases wrote : TransactionLogWritter.writeTo op e.log with
  | error thrown log =>
    rw [write_error queue wrote] at run
    cases run
    exact ⟨ls, l, es, _, layers, replaceLast_queue queue _, older, newest.threw wrote⟩
  | ok a log =>
    rw [write_ok queue wrote] at run
    cases run

/-- The oldest MemTable becomes an SSTable of the store. -/
theorem Mirrors.popped (mirrors : Mirrors torn s.prepare.memTables self.prepare.queue) {oldest : LoggedTable}
    {newer : List LoggedTable} (queue : self.queue = oldest :: newer) (some : newer ≠ [])
    (permit : List SSTable → Nat → Prop) :
    ∃ t, Store.Background cfg permit s t ∧ Mirrors torn t.prepare.memTables newer := by
  obtain ⟨ls, l, es, e, layers, entries, older, newest⟩ := mirrors
  rw [prepare_some (by simp [queue]), queue] at entries
  cases older with
  | nil => simp_all
  | @cons l' e' ls es first rest =>
    obtain ⟨rfl, rfl⟩ := List.cons.inj entries
    have memTables : s.memTables = l' :: (ls ++ [l]) := by
      rw [Store.prepare] at layers
      split_ifs at layers with none
      · simp at layers
      · exact layers
    obtain ⟨ssTables, start, _⟩ := s
    cases memTables
    refine ⟨_, .hand (t := ⟨⟨0⟩, l'.current⟩) rfl (by simp), ?_⟩
    exact ⟨ls, l, es, e, by simp [Store.prepare], rfl, rest, newest⟩

end Calls
section Recovery

/-- Whatever the log of a MemTable has when its process stops, or when its stream has been closed
and has moved nothing twice: where only removes have been logged, it loads as the MemTable after
all that has been logged, but perhaps for the newest write, or with one that is torn. -/
def Recovers (torn : List Operation) (l : Layer) (e : LoggedTable) : Prop :=
  ∀ (name : FileName) (base : List Operation) (content : List Byte), l.log = transactionLog.file base →
    (∀ op ∈ base ++ (l.writes ++ torn), op.isRemove = true) → content = e.log.file ∨ content = e.log.close.file ∧
      content <+: Layer.contents transactionLog { l with writes := l.writes ++ torn } →
    ∃ kept, l.writes.dropLast <+: kept ∧ kept <+: l.writes ++ torn ∧
      TransactionLogLoader.load name (.between [] content) = .ok (replay (base ++ kept))

/-- A log of removes that is cut off behind some of them loads as the MemTable after these or more. -/
theorem load_between (name : FileName) {ops more : List Operation} {content : List Byte}
    (least : transactionLog.file ops <+: content) (most : content <+: transactionLog.file more)
    (removes : ∀ op ∈ more, op.isRemove = true) (fewer : ops <+: more) :
    ∃ kept, ops <+: kept ∧ kept <+: more ∧ TransactionLogLoader.load name (.between [] content) = .ok (replay kept) := by
  rw [(file_removes removes).1] at most
  obtain ⟨done, rest, records, fits, longest, loads⟩ := TransactionLogLoader.load_truncated name _ most
  obtain ⟨kept, behind, rfl, rfl, rfl⟩ := List.map_eq_append_iff.mp records
  have removesKept : ∀ op ∈ kept, op.isRemove = true := fun op member => removes op (List.mem_append_left _ member)
  refine ⟨kept, ?_, List.prefix_append _ _, by rw [loads, (file_removes removesKept).2]⟩
  rcases List.prefix_or_prefix_of_prefix fewer (List.prefix_append kept behind) with enough | ⟨missing, short⟩
  · exact enough
  · cases missing with
    | nil =>
      rw [List.append_nil] at short
      exact short ▸ List.prefix_refl _
    | cons op missing =>
      -- the record behind those that have been loaded is complete too
      rw [← short, List.prefix_append_right_inj] at fewer
      obtain ⟨later, rfl⟩ := fewer
      have removesNext : ∀ op' ∈ kept ++ [op], op'.isRemove = true := fun op' member => removes op' (by
        rw [List.cons_append, List.append_cons]
        exact List.mem_append_left _ member)
      have bytes := (file_removes removesNext).1
      rw [List.map_append, List.map_singleton] at bytes
      refine absurd ?_ (longest _ rfl)
      rw [← bytes]
      refine (file_mono ?_).trans least
      exact ⟨missing, by rw [← short, List.append_assoc, List.singleton_append]⟩

theorem Holds.recovers (holds : Holds torn l e) : Recovers torn l e := by
  intro name base content log removes left
  obtain ⟨least, most⟩ : Layer.contents transactionLog { l with writes := l.writes.dropLast } <+: content ∧
      content <+: Layer.contents transactionLog { l with writes := l.writes ++ torn } := by
    rcases left with rfl | ⟨rfl, once⟩
    · exact holds.content
    · obtain ⟨_, _, _, _, held, _, again, _, _, close⟩ := holds.closes
      exact ⟨holds.content.1.trans (close ▸ List.prefix_append _ _), once⟩
  have file (ops : List Operation) :
      Layer.contents transactionLog { l with writes := ops } = transactionLog.file (base ++ ops) := by
    rw [Layer.contents, log, LogFormat.file, LogFormat.file, LogFormat.file, List.flatMap_append]
  rw [file] at least most
  have fewer : l.writes.dropLast <+: l.writes ++ torn := (List.dropLast_prefix _).trans (List.prefix_append _ _)
  obtain ⟨all, enough, few, loads⟩ :=
    load_between name least most removes ((List.prefix_append_right_inj base).mpr fewer)
  obtain ⟨kept, rfl⟩ := (List.prefix_append base _).trans enough
  exact ⟨kept, (List.prefix_append_right_inj base).mp enough, (List.prefix_append_right_inj base).mp few, loads⟩

theorem NewestTorn.imp {R S : List Operation → Layer → LoggedTable → Prop} {layers : List Layer}
    {queue : List LoggedTable} (implies : ∀ torn l e, R torn l e → S torn l e) (all : NewestTorn R torn layers queue) :
    NewestTorn S torn layers queue := by
  obtain ⟨ls, l, es, e, lasts, ends, older, newest⟩ := all
  exact ⟨ls, l, es, e, lasts, ends, older.imp (implies []), implies torn l e newest⟩

end Recovery

/-- The calls that return are a run of the store, whose MemTables the queue has. Once a call
has thrown, all calls throw. -/
theorem Run.refines (run : Run cfg first events self) (clean : ∀ e ∈ first.queue, e.log.buffer = [])
    (permit : List SSTable → Nat → Prop) :
    ∃ returned thrown t u, events = returned ++ thrown ∧ (∀ x ∈ thrown, x.1.operation ≠ none ∧ ∃ e, x.2 = .error e) ∧
      Store.Run cfg permit (atStart first) returned t ∧ Store.Settles cfg permit t u ∧
      Mirrors ((writesOf thrown).take 1) u.prepare.memTables self.prepare.queue := by
  induction run with
  | start => exact ⟨[], [], _, _, rfl, by simp, .start, .refl, Mirrors.start clean⟩
  | @returned events self after call op before operation run ih =>
    obtain ⟨returned, thrown, t, u, rfl, failures, stores, settles, mirrors⟩ := ih
    obtain ⟨none, now⟩ := mirrors.returned operation run
    have all : thrown = [] := by
      cases thrown with
      | nil => rfl
      | cons x thrown =>
        obtain ⟨some, _⟩ := failures x List.mem_cons_self
        obtain ⟨op', known⟩ := Option.ne_none_iff_exists'.mp some
        simp [writesOf, known] at none
    subst all
    have silent : KeyMap.answer u.answer call = Option.none := by
      cases call with
      | get key => cases operation
      | _ => rfl
    have next := stores.call call settles
    rw [silent] at next
    exact ⟨returned ++ [(call, .ok Option.none)], [], _, _, by simp, by simp, next, .refl, now.prepared⟩
  | @threw events self after call op e before operation run ih =>
    obtain ⟨returned, thrown, t, u, rfl, failures, stores, settles, mirrors⟩ := ih
    refine ⟨returned, thrown ++ [(call, .error e)], t, u, List.append_assoc .., ?_, stores, settles, ?_⟩
    · intro x member
      rcases List.mem_append.mp member with earlier | new
      · exact failures x earlier
      · obtain rfl := List.mem_singleton.mp new
        exact ⟨by simp [operation], e, rfl⟩
    · have now := mirrors.threw run
      rw [writesOf_concat, operation]
      rwa [prepare_some now.nonempty.2]
  | @popped events self oldest newer before queue some ih =>
    obtain ⟨returned, thrown, t, u, rfl, failures, stores, settles, mirrors⟩ := ih
    obtain ⟨v, hand, now⟩ : ∃ v, Store.Background cfg permit u v ∧ _ := mirrors.popped queue some permit
    refine ⟨returned, thrown, t, v, rfl, failures, stores, settles.tail hand, ?_⟩
    rwa [prepare_some some]

/-- However the streams of the logs fail: once a call has thrown, all calls throw. The MemTables
are those of the store after the calls that have returned, and the log of each holds all
its writes but for the newest, if its stream has failed, and a part of the record of
the first call that has thrown. This is what is recovered, where only removes are logged.
Closing the stream of a log appends bytes of that one record, some perhaps a second time. -/
theorem failures_lose_newest (run : Run cfg first events self) (clean : ∀ e ∈ first.queue, e.log.buffer = [])
    (permit : List SSTable → Nat → Prop) :
    ∃ returned thrown t u, events = returned ++ thrown ∧ (∀ x ∈ thrown, ∃ e, x.2 = .error e) ∧
      Store.Run cfg permit (atStart first) returned t ∧ Store.Settles cfg permit t u ∧
      Mirrors ((writesOf thrown).take 1) u.prepare.memTables self.prepare.queue ∧
      NewestTorn Recovers ((writesOf thrown).take 1) u.prepare.memTables self.prepare.queue ∧
      NewestTorn Closes ((writesOf thrown).take 1) u.prepare.memTables self.prepare.queue := by
  obtain ⟨returned, thrown, t, u, split, failures, stores, settles, mirrors⟩ := run.refines clean permit
  exact ⟨returned, thrown, t, u, split, fun x member => (failures x member).2, stores, settles, mirrors,
    mirrors.imp fun _ _ _ holds => holds.recovers, mirrors.imp fun _ _ _ holds => holds.closes⟩

/-- The flush of a remove fails when one byte of its record is in the file, and keeps all of it. -/
def oneByteReaches : LoggedQueue := ⟨[], [(false, [.move 0, .move 0, .fail 1 12])]⟩

/-- The first remove returns although the flush of its record fails, and the second one throws. -/
theorem failures_lose_newest_sample : ∃ self e returned thrown t,
    Run .default oneByteReaches [(.remove .empty, .ok none), (.remove .empty, .error e)] self ∧
      (self.queue.map fun entry => entry.log.file) = [[2]] ∧
      [(Call.remove .empty, .ok none), (Call.remove .empty, .error e)] = returned ++ thrown ∧
      Store.Run .default (fun _ _ => False) ⟨[], 0, []⟩ returned t := by
  have first : Run .default oneByteReaches [(.remove .empty, .ok none)] _ := .returned .start rfl rfl
  have both : Run .default _ [(.remove .empty, .ok none), (.remove .empty, .error _)] _ := first.threw rfl rfl
  obtain ⟨returned, thrown, t, _, split, _, stores, _⟩ :=
    failures_lose_newest both (by simp [oneByteReaches]) fun _ _ => False
  exact ⟨_, _, returned, thrown, t, both, rfl, split, stores⟩

/-- When a flush has failed with one byte of a remove in the file, and the close then moves the
whole record behind that byte, the log does not load any more, whatever removes it has before. -/
theorem load_again (name : FileName) {ops : List Operation} (removes : ∀ op ∈ ops, op.isRemove = true)
    (key : StdString) : ∃ msg, TransactionLogLoader.load name (.between [] (transactionLog.file ops ++
      (2 :: TransactionLogWritter.record (.remove key)))) = .error (.dbException msg) := by
  -- the first four bytes are read as a tag, 2 + 2 * 256
  have bad : BadTag (2 :: TransactionLogWritter.record (.remove key)) :=
    ⟨514, 0 :: serializeString key, rfl, by decide, by decide⟩
  rw [(file_removes removes).1]
  exact (TransactionLogLoader.load_records name _ bad.no_record).1 bad

example : ∃ self, Run .default oneByteReaches [(.remove .empty, .ok none)] self ∧
    (self.queue.map fun e => e.log.close.file) = [2 :: TransactionLogWritter.record (.remove .empty)] :=
  ⟨_, .returned .start rfl rfl, rfl⟩

end LoggedQueue
end ProjectDb
