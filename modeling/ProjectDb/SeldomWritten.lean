import ProjectDb.Versions
import ProjectDb.Durability

namespace ProjectDb

open ProjectDbImpl (Call Event)

/-- What a call does to a key depends on what the key has. -/
theorem KeyMap.after_congr {m n : KeyMap} {key : StdString} (same : m key = n key) (call : Call) :
    KeyMap.after m call key = KeyMap.after n call key := by
  cases call <;> simp only [KeyMap.after, Function.update_apply, same]

namespace Store

variable {cfg : Config} {permit : List SSTable → Nat → Prop} {s t : Store} {ops : List Operation}
  {key : Key} {before : List Value}

/-- Nothing is deleted, or too little is there to cancel out. -/
def Quiet (entries : List Value) : Prop := (∀ v ∈ entries, v.isTombstoneValue = false) ∨ entries.length ≤ 2

instance (entries : List Value) : Decidable (Quiet entries) := inferInstanceAs (Decidable (_ ∨ _))

theorem Quiet.sublist {older newer : List Value} (quiet : Quiet newer) (fewer : older.Sublist newer) : Quiet older :=
  quiet.imp (fun live v member => live v (fewer.subset member)) fun few => fewer.length_le.trans few

theorem Background.answer_quiet (step : Background cfg permit s t) {key : StdString} (quiet : Quiet (s.entries ⟨key⟩)) :
    t.answer key = s.answer key := by
  cases step with
  | hand same _ =>
    rw [answer_eq, answer_eq, List.map_append, List.map_singleton, same, newestOf_append, ← Option.or_assoc,
      ← newestOf_append]
    rfl
  | @compact ssTables start memTables =>
    have lower : Quiet (history (ssTables.map fun t => t.table.find? ⟨key⟩)) := by
      rw [entries_eq] at quiet
      exact quiet.sublist (List.sublist_append_left _ _)
    rw [answer_eq, answer_eq]
    dsimp only
    cases newestOf (memTables.map fun l => l.current.find? ⟨key⟩) with
    | some v => rfl
    | none =>
      rw [Option.none_or, Option.none_or, groupAnswers_merged, ← groupAnswers_flatten cfg ssTables start ⟨key⟩]
      rw [← groupAnswers_flatten cfg ssTables start ⟨key⟩] at lower
      rw [alive_survivors lower]

theorem Descends.answer {key : StdString} (descends : Descends before ⟨key⟩ ops s)
    (quiet : Quiet (before ++ writtenTo ⟨key⟩ ops)) (settles : Settles cfg permit s t) : t.answer key = s.answer key := by
  induction settles with
  | refl => rfl
  | tail earlier step ih => exact (step.answer_quiet (quiet.sublist (descends.settles earlier))).trans ih

theorem Quiet.earlier {events more : List Event} (quiet : Quiet (before ++ writtenTo key (writesOf (events ++ more)))) :
    Quiet (before ++ writtenTo key (writesOf events)) := by
  rw [writesOf, List.filterMap_append, ← writesOf, writtenTo_append, ← List.append_assoc] at quiet
  exact quiet.sublist (List.sublist_append_left _ _)

/-- Whatever is compacted, a run answers for a key that is seldom written as the map does. -/
theorem Run.answer_quiet {events : List Event} (run : Run cfg permit s events t) {key : StdString}
    (quiet : Quiet (s.entries ⟨key⟩ ++ writtenTo ⟨key⟩ (writesOf events))) :
    t.answer key = (events.map Prod.fst).foldl KeyMap.after s.answer key := by
  induction run with
  | start => rfl
  | call call before settles ih =>
    have settled := (before.descends ⟨key⟩).answer quiet.earlier settles
    rw [answer_called, List.map_append, List.foldl_append]
    exact KeyMap.after_congr (settled.trans (ih quiet.earlier)) call

end Store

namespace ProjectDbImpl
variable {cfg : Config} {fmt : LogFormat} {permit : List SSTable → Nat → Prop} {start db : ProjectDbImpl}
  {files : Files} {tables : List (Nat × SSTable)} {logs : List (Nat × List Byte)} {memory : List Table} {events : List Event}

/-- No compaction, whichever and whenever, changes what is answered for a key that has not
been removed, or has two versions at most. -/
theorem seldom_written_answers (disk : Disk files tables logs) (loads : LogsLoad fmt logs memory)
    (opened : Opened cfg fmt permit files start) (session : Session cfg fmt permit start events db) {key : StdString}
    (seldom : Store.Quiet (storedVersions tables memory ⟨key⟩ ++ writtenTo ⟨key⟩ (writesOf events))) :
    answer cfg db key = .ok ((events.map Prod.fst).foldl KeyMap.after (stored tables memory) key) ∧
      ∀ earlier out later, events = earlier ++ (.get key, out) :: later →
        out = .ok ((earlier.map Prod.fst).foldl KeyMap.after (stored tables memory) key) := by
  obtain ⟨v, represents⟩ := opened.represents disk loads
  obtain ⟨t, w, run, now⟩ := session.storeRun represents
  rw [← entries_ofDisk tables loads] at seldom
  rw [← answer_ofDisk loads]
  refine ⟨by rw [now.answersAs, run.answer_quiet seldom], ?_⟩
  rintro earlier out later rfl
  obtain ⟨u, m, before, settles, same, _⟩ := run.split
  have settled := (before.descends ⟨key⟩).answer seldom.earlier settles
  refine same.trans (congrArg Except.ok ?_)
  exact settled.trans (before.answer_quiet seldom.earlier)

/-- A key that has been set once and removed once stays removed. -/
theorem seldom_written_answers_sample : ∃ events db,
    play sessionConfig transactionLog (opened sessionConfig transactionLog) (removingScript (.set otherKey oldString)) =
        some (events, db) ∧
      (db.ssTableIndexQueue.queue.length = 2 ∧ db.ssTableCompactionFuture.isNone) ∧
      answer sessionConfig db sampleKey = .ok none := by
  have played : (play sessionConfig transactionLog (opened sessionConfig transactionLog)
      (removingScript (.set otherKey oldString))).map (fun result => ((result.2.ssTableIndexQueue.queue.length,
        result.2.ssTableCompactionFuture.isNone), result.1.map Prod.fst)) =
      some ((2, true), [.set sampleKey oldString, .set otherKey newString, .remove sampleKey, .set otherKey oldString,
        .get sampleKey, .get sampleKey]) := by decide +kernel
  obtain ⟨⟨events, db⟩, run, known⟩ := Option.map_eq_some_iff.mp played
  obtain ⟨sizes, calls⟩ := Prod.mk.inj known
  obtain ⟨length, idle⟩ := Prod.mk.inj sizes
  have session : Session sessionConfig transactionLog anyCompaction (opened sessionConfig transactionLog)
      events db := play_session .opened (permitted_of fun _ _ _ => trivial) run
  have seldom : Store.Quiet (storedVersions [] [] ⟨sampleKey⟩ ++ writtenTo ⟨sampleKey⟩ (writesOf events)) := by
    rw [writesOf_eq, calls]
    decide +kernel
  obtain ⟨answer, _⟩ := seldom_written_answers disk_empty .nil opened_opened session seldom
  refine ⟨events, db, run, ⟨length, idle⟩, ?_⟩
  rw [answer, calls]
  decide +kernel

/-- One that is removed twice after it has been set comes back. -/
example : ((play sessionConfig transactionLog (opened sessionConfig transactionLog)
    (removingScript (.remove sampleKey))).bind fun result => result.1.getLast?).map Prod.snd =
      some (.ok (some oldString)) := by decide +kernel

end ProjectDbImpl
end ProjectDb
