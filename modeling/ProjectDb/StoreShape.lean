import ProjectDb.Linearization
import ProjectDb.CrashRecovery

namespace ProjectDb

open ProjectDbImpl (Call Event)

namespace Layer

/-- No write to the table has made it full. -/
def Filling (cfg : Config) (l : Layer) : Prop :=
  ∀ done, done <+: l.writes → done ≠ [] → full cfg { l with writes := done } = false

/-- The last write to the table has made it full, and none before. -/
def Filled (cfg : Config) (l : Layer) : Prop :=
  ∃ earlier op, l.writes = earlier ++ [op] ∧ l.full cfg = true ∧ Filling cfg { l with writes := earlier }

variable {cfg : Config} {l : Layer} {op : Operation}

theorem filling_of_unwritten (none : l.writes = []) : Filling cfg l := fun _ isPrefix some =>
  absurd (List.prefix_nil.mp (none ▸ isPrefix)) some

theorem Filling.filled (filling : Filling cfg l) (full : (l.write op).full cfg = true) : Filled cfg (l.write op) :=
  ⟨l.writes, op, rfl, full, filling⟩

theorem Filling.write (filling : Filling cfg l) (room : (l.write op).full cfg = false) : Filling cfg (l.write op) := by
  intro done isPrefix some
  rcases List.prefix_concat_iff.mp isPrefix with rfl | shorter
  · exact room
  · exact filling done shorter some

end Layer

namespace Store

variable {cfg : Config} {permit : List SSTable → Nat → Prop} {s t u : Store}

section MemTables

/-- Every MemTable that waits for its flush has become full at its last write,
or has been loaded from a log and not been written to; the newest one is filling. -/
def Rolled (cfg : Config) (s t : Store) : Prop :=
  t.memTables = [] ∨ ∃ waiting newest, t.memTables = waiting ++ [newest] ∧
    (∀ l ∈ waiting, l.Filled cfg ∨ l ∈ s.memTables ∧ l.writes = []) ∧ newest.Filling cfg

theorem Rolled.background (rolled : Rolled cfg s t) (step : Background cfg permit t u) : Rolled cfg s u := by
  cases step with
  | compact => exact rolled
  | @hand ssTables start layer memTables _ _ some =>
    rcases rolled with none | ⟨waiting, newest, split, filled, filling⟩
    · contradiction
    · cases waiting with
      | nil =>
        rw [List.nil_append, List.cons.injEq] at split
        exact absurd split.2 some
      | cons first waiting =>
        obtain ⟨rfl, rfl⟩ := List.cons.inj split
        exact Or.inr ⟨waiting, newest, rfl, fun l member => filled l (List.mem_cons_of_mem _ member), filling⟩

theorem Rolled.settles (rolled : Rolled cfg s t) (settles : Settles cfg permit t u) : Rolled cfg s u := by
  induction settles with
  | refl => exact rolled
  | tail _ step ih => exact ih.background step

theorem Rolled.prepare (rolled : Rolled cfg s t) : Rolled cfg s t.prepare := by
  unfold Store.prepare
  split_ifs with none
  · exact Or.inr ⟨[], .new, rfl, by simp, Layer.filling_of_unwritten rfl⟩
  · exact rolled

/-- A write that fills the newest MemTable puts another one on top of it. -/
theorem Rolled.write (rolled : Rolled cfg s t) (some : t.memTables ≠ []) (op : Operation) :
    Rolled cfg s ((t.append op).roll cfg) := by
  obtain ⟨ssTables, start, memTables⟩ := t
  obtain ⟨waiting, newest, rfl, filled, filling⟩ := rolled.resolve_left some
  rw [append_concat, Store.roll]
  simp only [List.getLast?_concat, Option.any_some]
  split_ifs with full
  · refine Or.inr ⟨waiting ++ [newest.write op], .new, rfl, fun l member => ?_, Layer.filling_of_unwritten rfl⟩
    rcases List.mem_append.mp member with old | last
    · exact filled l old
    · rw [List.mem_singleton.mp last]
      exact Or.inl (filling.filled full)
  · exact Or.inr ⟨waiting, newest.write op, rfl, filled, filling.write (by simpa using full)⟩

theorem Rolled.called (rolled : Rolled cfg s t) (call : Call) : Rolled cfg s (t.called cfg call) := by
  unfold Store.called
  cases call.operation with
  | none => exact rolled
  | some op =>
    obtain ⟨earlier, l, queue⟩ := t.prepare_memTables
    exact rolled.prepare.write (by simp [queue]) op

theorem Run.rolled {events : List Event} (run : Run cfg permit s events t) (unwritten : ∀ l ∈ s.memTables, l.writes = []) :
    Rolled cfg s t := by
  induction run with
  | start =>
    rcases List.eq_nil_or_concat' s.memTables with none | ⟨waiting, newest, split⟩
    · exact Or.inl none
    · refine Or.inr ⟨waiting, newest, split, fun l member => Or.inr ?_, Layer.filling_of_unwritten (unwritten _ ?_)⟩
      · have listed : l ∈ s.memTables := split ▸ List.mem_append_left _ member
        exact ⟨listed, unwritten l listed⟩
      · rw [split]
        exact List.mem_append_right _ (List.mem_singleton_self _)
  | call call _ settles ih => exact (ih.settles settles).called call

end MemTables

section BelowStart

/-- The start index is within the queue, and the tables below it are, from old
to new, those that were below it before, and more. -/
structure Advances (s t : Store) : Prop where
  within : t.start ≤ t.ssTables.length
  kept : s.ssTables.take s.start <+: t.ssTables.take t.start

theorem Advances.background (advances : Advances s t) (step : Background cfg permit t u) : Advances s u := by
  obtain ⟨within, kept⟩ := advances
  cases step with
  | hand =>
    refine ⟨?_, ?_⟩
    · rw [List.length_append]
      exact within.trans (Nat.le_add_right _ _)
    · rwa [List.take_append_of_le_length within]
  | compact _ _ inside =>
    obtain ⟨short, passed⟩ := take_afterCompaction inside
    refine ⟨short, ?_⟩
    rw [passed]
    exact kept.trans (List.prefix_append _ _)

theorem Advances.settles (advances : Advances s t) (settles : Settles cfg permit t u) : Advances s u := by
  induction settles with
  | refl => exact advances
  | tail _ step ih => exact ih.background step

theorem Run.advances {events : List Event} (run : Run cfg permit s events t) (within : s.start ≤ s.ssTables.length) :
    Advances s t := by
  induction run with
  | start => exact ⟨within, List.prefix_refl _⟩
  | @call _ t m call _ settles ih =>
    obtain ⟨tables, start⟩ := called_ssTables cfg call m
    obtain ⟨within, kept⟩ := ih.settles settles
    exact ⟨by rw [tables, start]; exact within, by rw [tables, start]; exact kept⟩

/-- The tables below the start index stay where they are. -/
theorem Advances.take (advances : Advances s t) (within : s.start ≤ s.ssTables.length) :
    s.start ≤ t.start ∧ t.ssTables.take s.start = s.ssTables.take s.start := by
  have length : (s.ssTables.take s.start).length = s.start := by rw [List.length_take, Nat.min_eq_left within]
  have longer := advances.kept.length_le
  rw [length, List.length_take] at longer
  have later : s.start ≤ t.start := longer.trans (Nat.min_le_left _ _)
  have cut := List.prefix_iff_eq_take.mp advances.kept
  rw [length, List.take_take, Nat.min_eq_left later] at cut
  exact ⟨later, cut.symm⟩

end BelowStart
end Store

namespace ProjectDbImpl

variable {cfg : Config} {fmt : LogFormat} {permit : List SSTable → Nat → Prop} {start db later : ProjectDbImpl} {s : Store}
  {v : View} {files : Files} {tables : List (Nat × SSTable)} {logs : List (Nat × List Byte)} {memory : List Table}
  {events more : List Event}

/-- Between two calls every MemTable that waits for its flush has been filled by
its last write and not before, or is a log as it was loaded; no write has filled
the newest one. The writes of all MemTables together are the newest ones of the
session, and each has begun empty or as a log that was loaded. -/
theorem flush_when_full (disk : Disk files tables logs) (loads : LogsLoad fmt logs memory)
    (opened : Opened cfg fmt permit files start) (session : Session cfg fmt permit start events db) :
    db.memTableQueue = [] ∨ ∃ waiting newest, List.Forall₂ (Backs fmt db) db.memTableQueue (waiting ++ [newest]) ∧
      (∀ l ∈ waiting, l.Filled cfg ∨ l.writes = [] ∧ (l.log, l.table) ∈ (logs.map Prod.snd).zip memory) ∧
      newest.Filling cfg ∧ (waiting ++ [newest]).flatMap Layer.writes <:+ writesOf events ∧
      ∀ l ∈ waiting ++ [newest], (l.log, l.table) = ([], .empty) ∨ (l.log, l.table) ∈ (logs.map Prod.snd).zip memory := by
  obtain ⟨v, represents⟩ := opened.represents disk loads
  obtain ⟨t, w, run, now⟩ := session.storeRun represents
  have unwritten := Store.unwritten_ofDisk tables logs memory
  have remembers := run.remembers unwritten
  rcases run.rolled unwritten with none | ⟨waiting, newest, split, filled, filling⟩
  · have backs := now.shows.backs
    rw [none] at backs
    exact Or.inl (List.forall₂_nil_right_iff.mp backs)
  · have writes := remembers.writes
    have loaded := remembers.loaded
    rw [split] at writes loaded
    refine Or.inr ⟨waiting, newest, split ▸ now.shows.backs, fun l member => (filled l member).imp_right ?_, filling,
      writes, loaded⟩
    rintro ⟨loaded, none⟩
    obtain ⟨log, listed, rfl⟩ := List.mem_map.mp loaded
    exact ⟨none, listed⟩

/-- Two removes have filled a MemTable, and one has not filled the next. -/
def fillingCalls : List Call := [.remove sampleKey, .remove otherKey, .remove sampleKey]

theorem flush_when_full_sample : ∃ events db,
    play crashConfig transactionLog (opened crashConfig transactionLog) (fillingCalls.map .call) = some (events, db) ∧
      db.memTableQueue.length = 2 ∧ writesOf events = [.remove sampleKey, .remove otherKey, .remove sampleKey] ∧
      ∃ waiting newest, List.Forall₂ (Backs transactionLog db) db.memTableQueue (waiting ++ [newest]) ∧
        (∀ l ∈ waiting, l.Filled crashConfig) ∧ newest.Filling crashConfig ∧
        (waiting ++ [newest]).flatMap Layer.writes <:+ writesOf events := by
  have played : (play crashConfig transactionLog (opened crashConfig transactionLog) (fillingCalls.map .call)).map
      (fun result => (result.2.memTableQueue.length, writesOf result.1)) =
        some (2, [.remove sampleKey, .remove otherKey, .remove sampleKey]) := by decide +kernel
  obtain ⟨⟨events, db⟩, run, known⟩ := Option.map_eq_some_iff.mp played
  obtain ⟨length, writes⟩ := Prod.mk.inj known
  have session : Session crashConfig transactionLog anyCompaction (opened crashConfig transactionLog)
      events db := play_session .opened (permitted_of fun _ _ _ => trivial) run
  refine ⟨events, db, run, length, writes, ?_⟩
  rcases flush_when_full disk_empty .nil opened_opened session with none | ⟨waiting, newest, backs, filled, filling, newer, _⟩
  · change db.memTableQueue.length = 2 at length
    rw [none] at length
    contradiction
  · exact ⟨waiting, newest, backs, fun l member => (filled l member).resolve_right (nomatch ·.2), filling, newer⟩

/-- For the rest of a session the start index does not move back, and the tables
below it stay the same in the same places. -/
theorem below_start_kept (disk : Disk files tables logs) (opened : Opened cfg fmt permit files start)
    (session : Session cfg fmt permit start events db) (rest : Session cfg fmt permit db more later) :
    ∃ xs ys, OnDisk db.files db.ssTableIndexQueue.queue xs ∧ OnDisk later.files later.ssTableIndexQueue.queue ys ∧
      startIndex db ≤ startIndex later ∧
      (ys.map Prod.snd).take (startIndex db) = (xs.map Prod.snd).take (startIndex db) := by
  obtain ⟨memory, loads⟩ := opened.loads disk
  obtain ⟨v, represents⟩ := opened.represents disk loads
  obtain ⟨s, w, _, now⟩ := session.storeRun represents
  obtain ⟨t, x, run, later⟩ := rest.storeRun now
  have within : s.start ≤ s.ssTables.length := by
    rw [← now.start, ← now.queue, List.length_map]
    rcases now.inv.shelved.start with zero | inside
    · exact zero.le.trans (Nat.zero_le _)
    · exact inside.le
  obtain ⟨forward, same⟩ := (run.advances within).take within
  refine ⟨w.queue, x.queue, now.inv.onDisk, later.inv.onDisk, ?_, ?_⟩
  · rw [now.start, later.start]
    exact forward
  · rw [now.start, later.queue, now.queue]
    exact same

/-- One table is below the start index when a second compaction is installed. -/
theorem below_start_kept_sample : ∃ events db more later,
    (play sessionConfig transactionLog (opened sessionConfig transactionLog) resurrectingScript = some (events, db) ∧
      play sessionConfig transactionLog db resurrectingScript = some (more, later)) ∧
      startIndex db = 1 ∧
      ∃ xs ys, OnDisk db.files db.ssTableIndexQueue.queue xs ∧ OnDisk later.files later.ssTableIndexQueue.queue ys ∧
        1 ≤ startIndex later ∧ (ys.map Prod.snd).take 1 = (xs.map Prod.snd).take 1 := by
  have played : ((play sessionConfig transactionLog (opened sessionConfig transactionLog) resurrectingScript).bind
      fun result => (play sessionConfig transactionLog result.2 resurrectingScript).map
        fun _ => startIndex result.2) = some 1 := by decide +kernel
  obtain ⟨⟨events, db⟩, run, rest⟩ := Option.bind_eq_some_iff.mp played
  obtain ⟨⟨more, later⟩, again, one⟩ := Option.map_eq_some_iff.mp rest
  have session : Session sessionConfig transactionLog anyCompaction (opened sessionConfig transactionLog)
      events db := play_session .opened (permitted_of fun _ _ _ => trivial) run
  have second : Session sessionConfig transactionLog anyCompaction db more later :=
    play_session .opened (permitted_of fun _ _ _ => trivial) again
  have kept := below_start_kept disk_empty opened_opened session second
  change startIndex db = 1 at one
  rw [one] at kept
  exact ⟨events, db, more, later, ⟨run, again⟩, one, kept⟩

end ProjectDbImpl
end ProjectDb
