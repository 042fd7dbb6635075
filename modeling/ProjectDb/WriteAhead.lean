import ProjectDb.StreamSerializer
import ProjectDb.TransactionLog
import ProjectDb.Config

namespace ProjectDb

/-- `TransactionLogWritter::write`: the flush at its end is not checked. -/
def TransactionLogWritter.writeTo : Operation → Encoder Unit
  | .set key value => do
    serializeTrivialTo DbTransactionType.set
    serializeStringTo key
    serializeStringTo value
    OStream.silently OStream.flush
  | .remove key => do
    serializeTrivialTo DbTransactionType.remove
    serializeStringTo key
    OStream.silently OStream.flush

/-- The sizes of the writes of a record. -/
def recordPieces : Operation → List Nat
  | .set key value => 4 :: (stringPieces key ++ stringPieces value)
  | .remove key => 4 :: stringPieces key

/-- A MemTable with the stream of its log. -/
structure LoggedTable where
  table : Table
  log : OStream

/-- The stream on a new log file; the file may fail to open. -/
def openLog (opening : Bool × List Fate) : OStream := ⟨[], [], opening.1, opening.2⟩

/-- The queue of MemTables, oldest first, with what the opening of each new log comes to. -/
structure LoggedQueue where
  queue : List LoggedTable
  openings : List (Bool × List Fate)

namespace LoggedQueue

/-- `m_queue.emplace_back()`. -/
def emplaceNew (self : LoggedQueue) : LoggedQueue :=
  ⟨self.queue ++ [⟨.empty, openLog (self.openings.headD (false, []))⟩], self.openings.tail⟩

/-- Make sure that there is a MemTable to write to. -/
def prepare (self : LoggedQueue) : LoggedQueue := if self.queue.isEmpty then self.emplaceNew else self

/-- Put a table and its log in place of the last ones. -/
def replaceLast (self : LoggedQueue) (entry : LoggedTable) : LoggedQueue :=
  { self with queue := self.queue.dropLast ++ [entry] }

/-- `tryLaunchFlushToDisk` of the table that has been written to. -/
def tryLaunchFlushToDisk (cfg : Config) (self : LoggedQueue) (table : Table) : LoggedQueue :=
  if table.needsFlushToDisk cfg.memTableApproximateMaxSizeInBytes then self.emplaceNew else self

/-- `MemTableQueue::set` and `MemTableQueue::remove`. -/
def write (cfg : Config) (op : Operation) : EStateM Exn LoggedQueue Unit := fun self =>
  let self := self.prepare
  match self.queue.getLast? with
  | none => .error .undefined self
  | some last =>
    match TransactionLogWritter.writeTo op last.log with
    | .error e log => .error e (self.replaceLast { last with log := log })
    | .ok _ log =>
      let table := op.apply last.table
      .ok () ((self.replaceLast ⟨table, log⟩).tryLaunchFlushToDisk cfg table)

/-- A call that returns has its complete record in the log file of the
MemTable it has changed; a call that throws has changed no MemTable. -/
def Acknowledged (cfg : Config) (op : Operation) (self : LoggedQueue) : Prop :=
  match write cfg op self with
  | .ok _ after => ∃ earlier last log, self.prepare.queue = earlier ++ [last] ∧
      earlier ++ [⟨op.apply last.table, log⟩] <+: after.queue ∧
      log.file = last.log.written ++ TransactionLogWritter.record op
  | .error _ after => after.queue.map LoggedTable.table = self.prepare.queue.map LoggedTable.table

end LoggedQueue

/-- The writes of the record do not all succeed, or the flush behind them gets
all bytes that are still in the buffer to the file. -/
def FlushKeeps (log : OStream) (op : Operation) : Prop :=
  log.failed = true ∨ ∀ left, OStream.pending log.buffer.length (recordPieces op) log.fates = some left →
    OStream.moves left.1 left.2 = true

section Writing
open OStream

theorem writeTo_streams (op : Operation) :
    Streams (TransactionLogWritter.writeTo op) (TransactionLogWritter.record op) (recordPieces op) OStream.flush := by
  cases op with
  | set key value =>
    have last := (serializeStringTo_streams value).bind fun _ => Streams.silently OStream.flush
    rw [List.append_nil, List.append_nil] at last
    exact (serializeTrivialTo_streams DbTransactionType.set).bind fun _ => (serializeStringTo_streams key).bind fun _ => last
  | remove key =>
    have last := (serializeStringTo_streams key).bind fun _ => Streams.silently OStream.flush
    rw [List.append_nil, List.append_nil] at last
    exact (serializeTrivialTo_streams DbTransactionType.remove).bind fun _ => last

theorem writeTo_stuck (op : Operation) : Stuck (TransactionLogWritter.writeTo op) := by
  cases op <;> exact (Stuck.put _ _).bind _

namespace LoggedQueue
variable {cfg : Config} {op : Operation} {self : LoggedQueue}

theorem prepare_last (self : LoggedQueue) : ∃ earlier last, self.prepare.queue = earlier ++ [last] := by
  refine (List.eq_nil_or_concat' self.prepare.queue).resolve_left fun empty => ?_
  unfold prepare emplaceNew at empty
  split_ifs at empty with none
  · simp at empty
  · simp [empty] at none

theorem launch_prefix (self : LoggedQueue) (table : Table) : self.queue <+: (self.tryLaunchFlushToDisk cfg table).queue := by
  unfold tryLaunchFlushToDisk
  split_ifs
  · exact List.prefix_append ..
  · exact List.prefix_refl _

theorem replaceLast_queue {earlier : List LoggedTable} {last : LoggedTable} (queue : self.queue = earlier ++ [last])
    (entry : LoggedTable) : (self.replaceLast entry).queue = earlier ++ [entry] := by
  rw [replaceLast, queue, List.dropLast_concat]

/-- A call that throws has put back the table it found. -/
theorem error_keeps {earlier : List LoggedTable} {last : LoggedTable} (queue : self.queue = earlier ++ [last])
    (log : OStream) : (self.replaceLast { last with log := log }).queue.map LoggedTable.table =
      self.queue.map LoggedTable.table := by
  rw [replaceLast_queue queue, queue, List.map_append, List.map_append]
  rfl

/-- The file of the log that a call that returns leaves behind. -/
theorem returned_iff {earlier : List LoggedTable} {last : LoggedTable} {log : OStream}
    (queue : self.queue = earlier ++ [last]) (bytes : List Byte) :
    (∃ earlier' last' log', self.queue = earlier' ++ [last'] ∧
      earlier' ++ [⟨op.apply last'.table, log'⟩] <+:
        ((self.replaceLast ⟨op.apply last.table, log⟩).tryLaunchFlushToDisk cfg (op.apply last.table)).queue ∧
      log'.file = last'.log.written ++ bytes) ↔ log.file = last.log.written ++ bytes := by
  have grown : earlier ++ [⟨op.apply last.table, log⟩] <+:
      ((self.replaceLast ⟨op.apply last.table, log⟩).tryLaunchFlushToDisk cfg (op.apply last.table)).queue := by
    rw [← replaceLast_queue queue]
    exact launch_prefix _ _
  constructor
  · rintro ⟨earlier', last', log', same, found, file⟩
    rw [queue] at same
    obtain ⟨rfl, lasts⟩ := List.append_inj' same rfl
    obtain rfl : last = last' := List.singleton_inj.mp lasts
    have short := List.prefix_of_prefix_length_le found grown (by simp)
    have entries := List.append_cancel_left (short.eq_of_length (by simp))
    simp only [List.cons.injEq, LoggedTable.mk.injEq, true_and, and_true] at entries
    rw [← entries]
    exact file
  · intro file
    exact ⟨earlier, last, log, queue, grown, file⟩

theorem acknowledged_iff_keeps {earlier : List LoggedTable} {last : LoggedTable}
    (queue : self.prepare.queue = earlier ++ [last]) : Acknowledged cfg op self ↔ FlushKeeps last.log op := by
  have newest : self.prepare.queue.getLast? = some last := by rw [queue, List.getLast?_concat]
  unfold Acknowledged write
  simp only [newest]
  by_cases failed : last.log.failed = true
  · obtain ⟨e, run⟩ := writeTo_stuck op last.log failed
    simp only [run]
    exact ⟨fun _ => Or.inl failed, fun _ => error_keeps queue last.log⟩
  · have here := writeTo_streams op last.log (by simpa using failed)
    cases left : pending last.log.buffer.length (recordPieces op) last.log.fates with
    | none =>
      rw [left] at here
      obtain ⟨e, log, run⟩ := here
      simp only [run]
      refine ⟨fun _ => Or.inr fun left' found => ?_, fun _ => error_keeps queue log⟩
      rw [left] at found
      contradiction
    | some left' =>
      rw [left] at here
      obtain ⟨_, there, arrives, run⟩ := here
      simp only [run]
      rw [returned_iff queue, ← arrives.written, flush_iff arrives.working, arrives.buffered, arrives.fates]
      constructor
      · intro keeps
        refine Or.inr fun left'' found => ?_
        rw [left] at found
        cases found
        exact keeps
      · rintro (broken | keeps)
        · exact absurd broken failed
        · exact keeps left' left

/-- A write is acknowledged exactly when the flush at its end keeps the record. -/
theorem acknowledged_iff (cfg : Config) (op : Operation) (self : LoggedQueue) :
    Acknowledged cfg op self ↔ ∀ last, self.prepare.queue.getLast? = some last → FlushKeeps last.log op := by
  obtain ⟨earlier, last, queue⟩ := prepare_last self
  rw [acknowledged_iff_keeps queue, queue, List.getLast?_concat]
  simp

/-- A log to which the record of one remove is written without a failure,
until the flush at the end fails and none of the record gets to the file. -/
theorem flush_failure_loses_record :
    let self : LoggedQueue := ⟨[⟨.empty, ⟨[], [], false, [.move 0, .move 0, .fail 0 12]⟩⟩], []⟩
    ¬ Acknowledged .default (.remove .empty) self := by
  intro self acknowledged
  have queue : self.prepare.queue = [] ++ self.queue := rfl
  rcases (acknowledged_iff_keeps queue).mp acknowledged with broken | keeps
  · exact absurd broken (by decide)
  · exact absurd (keeps (12, [.fail 0 12]) (by decide)) (by decide)

end LoggedQueue
end Writing
end ProjectDb
