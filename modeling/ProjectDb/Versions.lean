import ProjectDb.Linearization
import ProjectDb.Foundation.FewEntries

namespace ProjectDb

open ProjectDbImpl (Call Event)

theorem bind_underlyingValue (found : Option Value) :
    found.bind Value.underlyingValue = (alive Value.isTombstoneValue found).map Value.value := by
  cases found with
  | none => rfl
  | some v =>
    cases dead : v.isTombstoneValue <;> simp [Value.underlyingValue, alive, dead]

/-- What some writes leave under a key, one after the other. -/
def writtenTo (key : Key) (ops : List Operation) : List Value :=
  (ops.filter fun op => op.key = key).map Operation.written

theorem writtenTo_append (key : Key) (ops more : List Operation) :
    writtenTo key (ops ++ more) = writtenTo key ops ++ writtenTo key more := by
  rw [writtenTo, List.filter_append, List.map_append]
  rfl

namespace Store

variable {cfg : Config} {permit : List SSTable → Nat → Prop} {s t u : Store} {op : Operation} {ops : List Operation}
  {key : Key} {before : List Value} {value : Value} {events : List Event}

/-- The entries of a key in all tables, oldest first. -/
def entries (s : Store) (key : Key) : List Value := history (s.layers.map fun table => table.find? key)

section Compaction
variable {ssTables : List SSTable} {start : Nat}

/-- The entries of a key in the groups of a compaction. -/
def groupAnswers (cfg : Config) (ssTables : List SSTable) (start : Nat) (key : Key) : List (List (Option Value)) :=
  (compactionGroups cfg ssTables start (cfg.numSSTableToCompact.toNat + 1)).map
    fun group => group.map fun s => s.table.find? key

theorem groupAnswers_flatten (cfg : Config) (ssTables : List SSTable) (start : Nat) (key : Key) :
    (groupAnswers cfg ssTables start key).flatten = ssTables.map fun s => s.table.find? key := by
  rw [groupAnswers, ← List.map_flatten, compactionGroups_flatten]

/-- A merged group has the survivor of its entries. -/
theorem groupAnswers_groups (cfg : Config) (ssTables : List SSTable) (start : Nat) (key : Key) :
    ((compactionGroups cfg ssTables start (cfg.numSSTableToCompact.toNat + 1)).map
      fun group => (mergeGroup group).table).map (fun table => table.find? key) =
      (groupAnswers cfg ssTables start key).map (survivor Value.isTombstoneValue) := by
  rw [groupAnswers, List.map_map, List.map_map]
  exact List.map_congr_left fun group _ => find?_mergeGroup group key

theorem groupAnswers_merged (cfg : Config) (ssTables : List SSTable) (start : Nat) (key : Key) :
    ((afterCompaction cfg ssTables start).1.map fun s => s.table.find? key) =
      (groupAnswers cfg ssTables start key).map (survivor Value.isTombstoneValue) := by
  rw [← groupAnswers_groups, ← tables_afterCompaction, List.map_map]
  rfl

end Compaction

theorem entries_eq (s : Store) (key : Key) : s.entries key =
    history (s.ssTables.map fun t => t.table.find? key) ++ history (s.memTables.map fun l => l.current.find? key) := by
  rw [entries, layers, List.map_append, history_append, List.map_map, List.map_map]
  rfl

theorem answer_eq (s : Store) (key : StdString) : s.answer key = (alive Value.isTombstoneValue
    ((newestOf (s.memTables.map fun l => l.current.find? ⟨key⟩)).or
      (newestOf (s.ssTables.map fun t => t.table.find? ⟨key⟩)))).map Value.value := by
  rw [answer, bind_underlyingValue, lookup, newest, layers, List.map_append, newestOf_append, List.map_map, List.map_map]
  rfl

/-- Beside the writes no entry of a key is made. -/
theorem Background.entries_sublist (step : Background cfg permit s t) (key : Key) :
    (t.entries key).Sublist (s.entries key) := by
  cases step with
  | hand same _ =>
    rw [entries_eq, entries_eq, List.map_append, List.map_singleton, same, history_append, List.append_assoc,
      ← history_append]
    exact List.Sublist.refl _
  | @compact ssTables start memTables =>
    rw [entries_eq, entries_eq]
    refine List.Sublist.append_right ?_ _
    rw [groupAnswers_merged, ← groupAnswers_flatten cfg ssTables start key]
    exact survivors_sublist _

theorem entries_new_on_top (s : Store) (key : Key) :
    entries { s with memTables := s.memTables ++ [.new] } key = s.entries key := by
  rw [entries_eq, entries_eq, List.map_append, history_append]
  simp

theorem entries_prepare (s : Store) (key : Key) : s.prepare.entries key = s.entries key := by
  unfold prepare
  split_ifs with none
  · rw [← entries_new_on_top s, none]
    rfl
  · rfl

theorem entries_roll (cfg : Config) (s : Store) (key : Key) : (s.roll cfg).entries key = s.entries key := by
  unfold roll
  split_ifs
  · exact entries_new_on_top s key
  · rfl

theorem answer_entries (s : Store) (key : StdString) :
    s.answer key = (s.entries ⟨key⟩).getLast?.bind Value.underlyingValue := by
  rw [answer, lookup, newest, newestOf_eq_getLast?]
  rfl

theorem entries_append_other (other : op.key ≠ key) : (s.append op).entries key = s.entries key := by
  obtain ⟨ssTables, start, memTables⟩ := s
  rcases List.eq_nil_or_concat' memTables with rfl | ⟨earlier, l, rfl⟩
  · rfl
  · have kept : (l.write op).current.find? key = l.current.find? key := by
      rw [Layer.current_write, Operation.find?_apply, if_neg (Ne.symm other)]
    rw [append_concat, entries_eq, entries_eq, List.map_append, List.map_append, List.map_singleton,
      List.map_singleton, kept]

/-- What is written is the newest entry, in the place of the one of the same MemTable. -/
theorem entries_append_key (s : Store) (op : Operation) (some : s.memTables ≠ []) :
    ∃ older, older.Sublist (s.entries op.key) ∧ (s.append op).entries op.key = older ++ [op.written] := by
  obtain ⟨ssTables, start, memTables⟩ := s
  obtain ⟨earlier, l, rfl⟩ := (List.eq_nil_or_concat' _).resolve_left some
  have written : (l.write op).current.find? op.key = Option.some op.written := by
    rw [Layer.current_write, Operation.find?_apply, if_pos rfl]
  refine ⟨history (ssTables.map fun t => t.table.find? op.key) ++
    history (earlier.map fun l => l.current.find? op.key), ?_, ?_⟩
  · rw [entries_eq, List.map_append, history_append, ← List.append_assoc]
    exact List.sublist_append_left _ _
  · rw [append_concat, entries_eq, List.map_append, List.map_singleton, written, history_append, history_singleton,
      ← List.append_assoc]
    rfl

/-- The entries of a key are, from old to new, some of those that were there before and of
what has been written since. -/
def Descends (before : List Value) (key : Key) (ops : List Operation) (t : Store) : Prop :=
  (t.entries key).Sublist (before ++ writtenTo key ops)

theorem Descends.of_entries (descends : Descends before key ops s) (same : t.entries key = s.entries key) :
    Descends before key ops t := by
  rw [Descends, same]
  exact descends

theorem Descends.settles (descends : Descends before key ops s) (settles : Settles cfg permit s t) :
    Descends before key ops t := by
  induction settles with
  | refl => exact descends
  | tail _ step ih => exact (step.entries_sublist key).trans ih

theorem Descends.append (descends : Descends before key ops s) (some : s.memTables ≠ []) :
    Descends before key (ops ++ [op]) (s.append op) := by
  rw [Descends, writtenTo_append, ← List.append_assoc]
  by_cases same : op.key = key
  · subst same
    obtain ⟨older, fewer, now⟩ := s.entries_append_key op some
    have one : writtenTo op.key [op] = [op.written] := by simp [writtenTo]
    rw [now, one]
    exact (fewer.trans descends).append_right _
  · rw [entries_append_other same]
    exact descends.trans (List.sublist_append_left _ _)

theorem Descends.called (descends : Descends before key ops s) (call : Call) :
    Descends before key (ops ++ call.operation.toList) (s.called cfg call) := by
  unfold Store.called
  cases write : call.operation with
  | none => rwa [Option.toList_none, List.append_nil]
  | some op =>
    obtain ⟨earlier, l, queue⟩ := s.prepare_memTables
    have prepared : Descends before key ops s.prepare := descends.of_entries (entries_prepare s key)
    have appended : Descends before key (ops ++ [op]) (s.prepare.append op) := prepared.append (by simp [queue])
    exact appended.of_entries (entries_roll cfg _ key)

theorem Run.descends (run : Run cfg permit s events t) (key : Key) :
    Descends (s.entries key) key (writesOf events) t := by
  induction run with
  | start => exact List.sublist_append_left _ _
  | call call _ settles ih =>
    rw [writesOf_concat]
    exact (ih.settles settles).called call

/-- A run up to one of its calls, the call, and the run behind it. -/
theorem Run.split {earlier later : List Event} {event : Event} (run : Run cfg permit s (earlier ++ event :: later) u) :
    ∃ t m, Run cfg permit s earlier t ∧ Settles cfg permit t m ∧ event.2 = .ok (KeyMap.answer m.answer event.1) ∧
      Run cfg permit (m.called cfg event.1) later u := by
  generalize whole : earlier ++ event :: later = events at run
  induction run generalizing later with
  | start =>
    have none := List.append_ne_nil_of_right_ne_nil earlier (List.cons_ne_nil event later)
    contradiction
  | @call events t m call before settles ih =>
    rcases List.eq_nil_or_concat' later with rfl | ⟨middle, last, rfl⟩
    · obtain ⟨rfl, same⟩ := List.append_inj' whole rfl
      cases same
      exact ⟨t, m, before, settles, rfl, .start⟩
    · rw [← List.cons_append, ← List.append_assoc] at whole
      obtain ⟨rfl, same⟩ := List.append_inj' whole rfl
      cases same
      obtain ⟨t', m', first, settled, answer, rest⟩ := ih rfl
      exact ⟨t', m', first, settled, answer, rest.call call settles⟩

/-- What a run answers was there before, or has been written since. -/
theorem Run.answered {key value : StdString} {earlier later : List Event}
    (run : Run cfg permit s (earlier ++ (.get key, .ok (some value)) :: later) u) :
    ∃ v ∈ s.entries ⟨key⟩ ++ writtenTo ⟨key⟩ (writesOf earlier), v.underlyingValue = some value := by
  obtain ⟨t, m, before, settles, answer, _⟩ := run.split
  have descends := (before.descends ⟨key⟩).settles settles
  have found : m.answer key = some value := (Except.ok.inj answer).symm
  rw [answer_entries, Option.bind_eq_some_iff] at found
  obtain ⟨v, last, live⟩ := found
  exact ⟨v, descends.subset (List.mem_of_getLast? last), live⟩

section Newest

/-- The newest entry of a key. -/
def Newest (value : Value) (key : Key) (t : Store) : Prop := (t.entries key).getLast? = some value

/-- No compaction takes a newest entry away that is no deletion. -/
theorem Newest.background (newest : Newest value key s) (live : value.isTombstoneValue = false)
    (step : Background cfg permit s t) : Newest value key t := by
  cases step with
  | hand same _ =>
    rw [Newest, entries_eq] at newest ⊢
    rw [List.map_append, List.map_singleton, same, history_append, List.append_assoc, ← history_append]
    exact newest
  | @compact ssTables start memTables =>
    rw [Newest, entries_eq, List.getLast?_append] at newest ⊢
    dsimp only at newest ⊢
    cases top : (history (memTables.map fun l => l.current.find? key)).getLast? with
    | some v =>
      rw [top] at newest
      exact newest
    | none =>
      rw [top, Option.none_or, ← newestOf_eq_getLast?, ← groupAnswers_flatten cfg ssTables start key] at newest
      rw [Option.none_or, ← newestOf_eq_getLast?, groupAnswers_merged]
      exact newestOf_survivors_live Value.isTombstoneValue newest live

theorem Newest.settles (newest : Newest value key s) (live : value.isTombstoneValue = false)
    (settles : Settles cfg permit s t) : Newest value key t := by
  induction settles with
  | refl => exact newest
  | tail _ step ih => exact ih.background live step

theorem Newest.called_other (newest : Newest value key s) {call : Call} (other : ∀ op ∈ call.operation, op.key ≠ key) :
    Newest value key (s.called cfg call) := by
  unfold Store.called
  cases write : call.operation with
  | none => exact newest
  | some op =>
    have same : entries ((s.prepare.append op).roll cfg) key = s.entries key := by
      rw [entries_roll, entries_append_other (other op write), entries_prepare]
    rw [Newest, same]
    exact newest

theorem newest_called (cfg : Config) (s : Store) (op : Operation) {call : Call} (write : call.operation = some op) :
    Newest op.written op.key (s.called cfg call) := by
  obtain ⟨earlier, l, queue⟩ := s.prepare_memTables
  obtain ⟨older, _, now⟩ := (s.prepare).entries_append_key op (by simp [queue])
  rw [Newest, called, write]
  dsimp only
  rw [entries_roll, now, List.getLast?_concat]

theorem Run.newest (run : Run cfg permit s events t) (newest : Newest value key s) (live : value.isTombstoneValue = false)
    (others : ∀ op ∈ writesOf events, op.key ≠ key) : Newest value key t := by
  induction run with
  | start => exact newest
  | call call _ settles ih =>
    rw [writesOf_concat] at others
    refine ((ih fun op member => others op (List.mem_append_left _ member)).settles live settles).called_other
      fun op member => others op (List.mem_append_right _ (Option.mem_toList.mpr member))

end Newest
end Store

namespace ProjectDbImpl

variable {cfg : Config} {fmt : LogFormat} {permit : List SSTable → Nat → Prop} {start db : ProjectDbImpl}
  {files : Files} {tables : List (Nat × SSTable)} {logs : List (Nat × List Byte)} {memory : List Table} {events : List Event}

/-- The entries of a key in a directory, from old to new. -/
def storedVersions (tables : List (Nat × SSTable)) (memory : List Table) (key : Key) : List Value :=
  history ((tables.map fun t => t.2.table.find? key) ++ memory.map fun t => t.find? key)

/-- The entries of a key in a database with these SSTables, from old to new. -/
def versions (xs : List Indexed) (db : ProjectDbImpl) (key : Key) : List Value :=
  history ((xs.map fun x => x.2.table.find? key) ++ db.memTableQueue.map fun e => (db.tables e.1.table).find? key)

theorem entries_ofDisk (tables : List (Nat × SSTable)) (loads : LogsLoad fmt logs memory) (key : Key) :
    (Store.ofDisk tables logs memory).entries key = storedVersions tables memory key := by
  have current : memory = (Store.ofDisk tables logs memory).memTables.map Layer.current :=
    (MemoryOf.ofDisk tables loads []).memory
  have found := congrArg (List.map fun table : Table => table.find? key) current
  rw [List.map_map] at found
  rw [Store.entries_eq, ← history_append, storedVersions, found, Store.ofDisk, List.map_map]
  rfl

theorem Represents.versions {t : Store} {w : View} (represents : Represents cfg fmt permit t w db) (key : Key) :
    versions w.queue db key = t.entries key := by
  have memory := represents.inv.flushing.memory
  rw [represents.memory.memory] at memory
  have found := congrArg (List.map fun table : Table => table.find? key) memory
  rw [List.map_map, List.map_map] at found
  rw [Store.entries_eq, ← history_append, ← represents.queue, List.map_map]
  exact congrArg (fun layers => history ((w.queue.map fun x => x.2.table.find? key) ++ layers)) found

theorem set_of_written {key value : StdString} {calls : List Call} {v : Value}
    (member : v ∈ writtenTo ⟨key⟩ (calls.filterMap Call.operation)) (live : v.underlyingValue = some value) :
    Call.set key value ∈ calls := by
  obtain ⟨op, listed, rfl⟩ := List.mem_map.mp member
  obtain ⟨written, same⟩ := List.mem_filter.mp listed
  obtain ⟨call, called, write⟩ := List.mem_filterMap.mp written
  cases call with
  | get other => cases write
  | remove other =>
    cases write
    cases live
  | set other stored =>
    cases write
    cases live
    cases of_decide_eq_true same
    exact called

theorem writesOf_eq (events : List Event) : writesOf events = (events.map Prod.fst).filterMap Call.operation := by
  rw [writesOf, List.filterMap_map]
  rfl

/-- Whatever is compacted, and whenever: the entries of a key that a database holds are, in
their order, some of those of the directory and of what has been written since. What a call
gets has been set before, or was in the directory. -/
theorem versions_in_order (disk : Disk files tables logs) (loads : LogsLoad fmt logs memory)
    (opened : Opened cfg fmt permit files start) (session : Session cfg fmt permit start events db) (key : StdString) :
    (∃ xs, OnDisk db.files db.ssTableIndexQueue.queue xs ∧
      (versions xs db ⟨key⟩).Sublist (storedVersions tables memory ⟨key⟩ ++ writtenTo ⟨key⟩ (writesOf events))) ∧
    ∀ earlier value later, events = earlier ++ (.get key, .ok (some value)) :: later →
      Call.set key value ∈ earlier.map Prod.fst ∨
        ∃ v ∈ storedVersions tables memory ⟨key⟩, v.underlyingValue = some value := by
  obtain ⟨v, represents⟩ := opened.represents disk loads
  obtain ⟨t, w, run, now⟩ := session.storeRun represents
  have origin := entries_ofDisk tables loads ⟨key⟩
  refine ⟨⟨w.queue, now.inv.onDisk, ?_⟩, ?_⟩
  · rw [now.versions, ← origin]
    exact run.descends ⟨key⟩
  · rintro earlier value later rfl
    obtain ⟨v, member, live⟩ := run.answered
    rcases List.mem_append.mp member with old | new
    · exact Or.inr ⟨v, origin ▸ old, live⟩
    · exact Or.inl (set_of_written (writesOf_eq earlier ▸ new) live)

/-- Also the value that a compaction brings back has been set once. -/
theorem versions_in_order_sample : ∃ events db xs,
    play sessionConfig transactionLog (opened sessionConfig transactionLog) resurrectingScript = some (events, db) ∧
      OnDisk db.files db.ssTableIndexQueue.queue xs ∧
      (versions xs db ⟨sampleKey⟩).Sublist [.ofString oldString, .ofString newString, .tombstone] ∧
      ∃ earlier, events = earlier ++ [(.get sampleKey, .ok (some oldString))] ∧
        Call.set sampleKey oldString ∈ earlier.map Prod.fst := by
  have played : (play sessionConfig transactionLog (opened sessionConfig transactionLog) resurrectingScript).map
      Prod.fst = some ([(.set sampleKey oldString, .ok none), (.set otherKey newString, .ok none),
      (.set sampleKey newString, .ok none), (.remove sampleKey, .ok none), (.get sampleKey, .ok none)] ++
      [(.get sampleKey, .ok (some oldString))]) := by decide +kernel
  obtain ⟨⟨events, db⟩, run, split⟩ := Option.map_eq_some_iff.mp played
  have session : Session sessionConfig transactionLog anyCompaction (opened sessionConfig transactionLog)
      events db := play_session .opened (permitted_of fun _ _ _ => trivial) run
  obtain ⟨⟨xs, onDisk, inOrder⟩, gets⟩ := versions_in_order disk_empty .nil opened_opened session sampleKey
  have written : writtenTo ⟨sampleKey⟩ (writesOf events) = [.ofString oldString, .ofString newString, .tombstone] := by
    rw [show events = _ from split]
    rfl
  refine ⟨events, db, xs, run, onDisk, written ▸ inOrder, _, split, ?_⟩
  exact (gets _ oldString [] split).resolve_right (by simp [storedVersions])

/-- Whatever is compacted: from a set on, and until the key is written to again, every get of the
key answers the value that has been set, and so does the database. -/
theorem last_set_answers {key value : StdString} {earlier later : List Event} {out : Except Exn (Option StdString)}
    (disk : Disk files tables logs) (opened : Opened cfg fmt permit files start)
    (session : Session cfg fmt permit start events db) (split : events = earlier ++ (.set key value, out) :: later)
    (others : ∀ op ∈ writesOf later, op.key ≠ ⟨key⟩) :
    answer cfg db key = .ok (some value) ∧ ∀ got, (Call.get key, got) ∈ later → got = .ok (some value) := by
  obtain ⟨memory, loads⟩ := opened.loads disk
  obtain ⟨v, represents⟩ := opened.represents disk loads
  obtain ⟨t, w, run, now⟩ := session.storeRun represents
  subst split
  obtain ⟨u, m, _, _, _, rest⟩ := run.split
  have set : Store.Newest (.ofString value) ⟨key⟩ (m.called cfg (.set key value)) :=
    Store.newest_called cfg m (.set key value) rfl
  have reads {x : Store} (newest : Store.Newest (.ofString value) ⟨key⟩ x) : x.answer key = some value := by
    rw [Store.answer_entries, newest]
    rfl
  refine ⟨?_, fun got member => ?_⟩
  · rw [now.answersAs key, reads (rest.newest set rfl others)]
  · obtain ⟨middle, more, rfl⟩ := List.append_of_mem member
    obtain ⟨x, y, between, settles, answer, _⟩ := rest.split
    have unwritten : ∀ op ∈ writesOf middle, op.key ≠ ⟨key⟩ := fun op listed => others op (by
      rw [writesOf, List.filterMap_append]
      exact List.mem_append_left _ listed)
    have still := (between.newest set rfl unwritten).settles rfl settles
    exact answer.trans (congrArg Except.ok (reads still))

/-- A key is set after it has been removed, and four SSTables are compacted. -/
def settingScript : List Move :=
  [.call (.set sampleKey oldString), .flush 0, .call (.remove sampleKey), .flush 0, .call (.set sampleKey newString),
    .flush 0, .call (.remove otherKey), .flush 0, .call (.get sampleKey), .compaction, .call (.get sampleKey)]

theorem last_set_answers_sample : ∃ events db,
    play sessionConfig transactionLog (opened sessionConfig transactionLog) settingScript = some (events, db) ∧
      answer sessionConfig db sampleKey = .ok (some newString) := by
  have played : (play sessionConfig transactionLog (opened sessionConfig transactionLog) settingScript).map
      Prod.fst = some ([(.set sampleKey oldString, .ok none), (.remove sampleKey, .ok none)] ++
      (.set sampleKey newString, .ok none) :: [(.remove otherKey, .ok none), (.get sampleKey, .ok (some newString)),
      (.get sampleKey, .ok (some newString))]) := by decide +kernel
  obtain ⟨⟨events, db⟩, run, split⟩ := Option.map_eq_some_iff.mp played
  have session : Session sessionConfig transactionLog anyCompaction (opened sessionConfig transactionLog)
      events db := play_session .opened (permitted_of fun _ _ _ => trivial) run
  have answers := last_set_answers disk_empty opened_opened session split (by decide)
  exact ⟨events, db, run, answers.1⟩

end ProjectDbImpl
end ProjectDb
