import ProjectDb.StoreCalls
import ProjectDb.FullTables

namespace ProjectDb

open ProjectDbImpl (Call Event Harmless)

/-- The writes among some calls. -/
def writesOf (events : List Event) : List Operation := events.filterMap fun event => event.1.operation

theorem writesOf_concat (events : List Event) (event : Event) :
    writesOf (events ++ [event]) = writesOf events ++ event.1.operation.toList := by
  rw [writesOf, List.filterMap_append]
  cases write : event.1.operation <;> simp [writesOf, write]

namespace Store

/-- Calls on a store with their answers, each after some of what happens beside
the writes. -/
inductive Run (cfg : Config) (permit : List SSTable → Nat → Prop) (s : Store) : List Event → Store → Prop
  | start : Run cfg permit s [] s
  | call {events : List Event} {t m : Store} (call : Call) : Run cfg permit s events t → Settles cfg permit t m →
      Run cfg permit s (events ++ [(call, .ok (KeyMap.answer m.answer call))]) (m.called cfg call)

/-- The store to which a directory is loaded. -/
def ofDisk (tables : List (Nat × SSTable)) (logs : List (Nat × List Byte)) (memory : List Table) : Store :=
  ⟨tables.map Prod.snd, 0, ((logs.map Prod.snd).zip memory).map fun loaded => ⟨loaded.1, loaded.2, []⟩⟩

variable {cfg : Config} {permit : List SSTable → Nat → Prop} {s t u : Store} {op : Operation} {ops : List Operation}
  {call : Call}

section Memory

/-- The MemTables of `t` hold the newest of some writes since `s`, on top of
what the logs of `s` brought. -/
structure Remembers (s : Store) (ops : List Operation) (t : Store) : Prop where
  writes : t.memTables.flatMap Layer.writes <:+ ops
  origin : ∀ l ∈ t.memTables, (l.log, l.table) = ([], .empty) ∨ ∃ k ∈ s.memTables, (l.log, l.table) = (k.log, k.table)

theorem Remembers.background (remembers : Remembers s ops t) (step : Background cfg permit t u) :
    Remembers s ops u := by
  cases step with
  | hand =>
    obtain ⟨writes, origin⟩ := remembers
    rw [List.flatMap_cons] at writes
    exact ⟨(List.suffix_append _ _).trans writes, fun l member => origin l (List.mem_cons_of_mem _ member)⟩
  | compact => exact ⟨remembers.writes, remembers.origin⟩

theorem Remembers.settles (remembers : Remembers s ops t) (settles : Settles cfg permit t u) : Remembers s ops u := by
  induction settles with
  | refl => exact remembers
  | tail _ step ih => exact ih.background step

/-- Another MemTable changes nothing. -/
theorem Remembers.new (remembers : Remembers s ops t) :
    Remembers s ops { t with memTables := t.memTables ++ [.new] } := by
  obtain ⟨writes, origin⟩ := remembers
  refine ⟨?_, fun l member => ?_⟩
  · rw [List.flatMap_append]
    simpa [Layer.new] using writes
  · rcases List.mem_append.mp member with old | last
    · exact origin l old
    · rw [List.mem_singleton.mp last]
      exact Or.inl rfl

theorem Remembers.prepare (remembers : Remembers s ops t) : Remembers s ops t.prepare := by
  unfold Store.prepare
  split_ifs with none
  · have first := remembers.new
    rwa [none] at first
  · exact remembers

theorem Remembers.roll (remembers : Remembers s ops t) : Remembers s ops (t.roll cfg) := by
  unfold Store.roll
  split_ifs
  · exact remembers.new
  · exact remembers

/-- What is written to the newest MemTable is the newest write. -/
theorem Remembers.append (remembers : Remembers s ops t) (some : t.memTables ≠ []) :
    Remembers s (ops ++ [op]) (t.append op) := by
  obtain ⟨writes, origin⟩ := remembers
  obtain ⟨ssTables, start, memTables⟩ := t
  obtain ⟨earlier, l, rfl⟩ := (List.eq_nil_or_concat' _).resolve_left some
  rw [append_concat]
  refine ⟨?_, fun x member => ?_⟩
  · obtain ⟨older, rfl⟩ := writes
    refine ⟨older, ?_⟩
    simp [Layer.write]
  · rcases List.mem_append.mp member with old | last
    · exact origin x (List.mem_append_left _ old)
    · rw [List.mem_singleton.mp last]
      exact origin l (List.mem_append_right _ (List.mem_singleton_self _))

theorem Remembers.written (remembers : Remembers s ops t) : Remembers s (ops ++ [op]) (t.prepare.append op) := by
  refine remembers.prepare.append ?_
  obtain ⟨earlier, l, queue⟩ := t.prepare_memTables
  simp [queue]

theorem Remembers.before (remembers : Remembers s ops t) (before : Before cfg permit call t u) : Remembers s ops u := by
  cases before with
  | settled settles => exact remembers.settles settles
  | prepared settles => exact (remembers.settles settles).prepare

theorem Remembers.after (remembers : Remembers s ops t) (after : After cfg permit call t u) :
    Remembers s (ops ++ call.operation.toList) u := by
  cases after with
  | appended settles write => exact write ▸ (remembers.settles settles).written
  | rolled settles write => exact write ▸ (remembers.settles settles).written.roll

theorem Remembers.called (remembers : Remembers s ops t) : Remembers s (ops ++ call.operation.toList) (t.called cfg call) := by
  unfold Store.called
  cases write : call.operation with
  | none => rwa [Option.toList_none, List.append_nil]
  | some op => exact remembers.written.roll

theorem Run.remembers {events : List Event} (run : Run cfg permit s events t) (unwritten : ∀ l ∈ s.memTables, l.writes = []) :
    Remembers s (writesOf events) t := by
  induction run with
  | start =>
    refine ⟨?_, fun l member => Or.inr ⟨l, member, rfl⟩⟩
    rw [List.flatMap_eq_nil_iff.mpr unwritten]
    exact List.nil_suffix
  | call call _ settles ih =>
    rw [writesOf_concat]
    exact (ih.settles settles).called

theorem unwritten_ofDisk (tables : List (Nat × SSTable)) (logs : List (Nat × List Byte)) (memory : List Table) :
    ∀ l ∈ (ofDisk tables logs memory).memTables, l.writes = [] := by
  intro l loaded
  obtain ⟨log, _, rfl⟩ := List.mem_map.mp loaded
  rfl

/-- Every MemTable has begun empty, or as one of those that were loaded. -/
theorem Remembers.loaded {tables : List (Nat × SSTable)} {logs : List (Nat × List Byte)} {memory : List Table}
    (remembers : Remembers (ofDisk tables logs memory) ops t) :
    ∀ l ∈ t.memTables, (l.log, l.table) = ([], .empty) ∨ (l.log, l.table) ∈ (logs.map Prod.snd).zip memory := by
  intro l member
  refine (remembers.origin l member).imp_right ?_
  rintro ⟨k, loaded, same⟩
  obtain ⟨log, listed, rfl⟩ := List.mem_map.mp loaded
  rwa [same]

end Memory
end Store

namespace ProjectDbImpl

variable {cfg : Config} {fmt : LogFormat} {permit : List SSTable → Nat → Prop} {s : Store} {v w : View} {n : Nat}
  {start db t u : ProjectDbImpl} {files : Files} {tables : List (Nat × SSTable)} {logs : List (Nat × List Byte)}
  {memory : List Table} {events : List Event} {call : Call} {rest later : DbProg (Option StdString)}

theorem MemoryOf.ofDisk (tables : List (Nat × SSTable)) (loads : LogsLoad fmt logs memory) (xs : List Indexed) :
    MemoryOf fmt (Store.ofDisk tables logs memory) (openedView xs logs memory) := by
  have length : (logs.map Prod.snd).length = memory.length := (List.length_map _).trans loads.length_eq
  refine ⟨?_, ?_⟩
  · have contents : Layer.contents fmt ∘ (fun loaded => ⟨loaded.1, loaded.2, []⟩) = Prod.fst :=
      funext fun loaded => List.append_nil _
    rw [Store.ofDisk, List.map_map, contents, List.map_fst_zip length.le]
    rfl
  · have current : Layer.current ∘ (fun loaded => ⟨loaded.1, loaded.2, []⟩) = Prod.snd := rfl
    rw [Store.ofDisk, List.map_map, current, List.map_snd_zip length.ge]
    rfl

/-- What an open database stands for between two calls. -/
structure Represents (cfg : Config) (fmt : LogFormat) (permit : List SSTable → Nat → Prop) (s : Store) (v : View)
    (t : ProjectDbImpl) : Prop where
  inv : Inv cfg permit v t
  settled : v.Settled
  memory : MemoryOf fmt s v
  queue : v.queue.map Prod.snd = s.ssTables
  start : startIndex t = s.start

theorem Represents.stands (represents : Represents cfg fmt permit s v db) (bounded : db.Bounded) :
    Stands cfg fmt permit s v 2 db :=
  ⟨represents.inv.ready bounded, represents.settled, represents.memory, represents.queue, represents.start⟩

theorem Stands.represents (stands : Stands cfg fmt permit s v n db) : Represents cfg fmt permit s v db :=
  ⟨stands.ready.inv, stands.settled, stands.memory, stands.queue, stands.start⟩

theorem Represents.shows (represents : Represents cfg fmt permit s v t) : Shows cfg fmt permit s v t :=
  ⟨represents.memory, represents.inv.flushing, represents.inv.logging,
    fun _ => ⟨represents.inv, represents.settled.lined, represents.queue, represents.start⟩⟩

/-- A database that has just been opened represents the store on its directory. -/
theorem Opened.represents (opened : Opened cfg fmt permit files db) (disk : Disk files tables logs)
    (loads : LogsLoad fmt logs memory) : ∃ v, Represents cfg fmt permit (Store.ofDisk tables logs memory) v db := by
  obtain ⟨xs, rfl, inv⟩ := opened.on disk loads
  refine ⟨_, inv, openedView_settled xs logs memory, ?_, ?_, opened.start_zero⟩
  · obtain ⟨contents, current⟩ := MemoryOf.ofDisk (xs.map fun x => (counterOf x, x.2)) loads xs
    exact ⟨contents, current⟩
  · rw [Store.ofDisk, List.map_map]
    rfl

/-- What one call of a session comes to. -/
theorem Represents.returned {answer : Option StdString} (represents : Represents cfg fmt permit s v db) (bounded : db.Bounded)
    (path : Prog.Reaches (Others cfg permit) (call.prog cfg fmt) db (.ret answer) t) :
    Calls cfg fmt permit (Store.Settles cfg permit s) 0 call answer t := by
  have anything (x : Store) : Allows cfg fmt permit Anywhere x := fun _ _ _ => trivial
  have commits := (represents.stands bounded).calls (n := 0) (fun x (_ : Store.Before cfg permit call s x) => anything x)
    fun x _ => anything x
  have safe : (call.prog cfg fmt).Safe (Others cfg permit) Anywhere (fun _ => False)
      (Calls cfg fmt permit (Store.Settles cfg permit s) 0 call) db :=
    commits.safe (fun _ _ => trivial) fun _ _ ends => ends.elim id id
  exact (safe.reaches path).returned

theorem Represents.others {next : ProjectDbImpl} (represents : Represents cfg fmt permit s v db) (step : Others cfg permit db next) :
    Represents cfg fmt permit s v next :=
  ⟨represents.inv.others step, represents.settled, represents.memory, represents.queue,
    step.startIndex.trans represents.start⟩

/-- A session is a run of the store. -/
theorem Session.storeRun (session : Session cfg fmt permit start events db) (represents : Represents cfg fmt permit s v start) :
    ∃ t w, Store.Run cfg permit s events t ∧ Represents cfg fmt permit t w db := by
  induction session with
  | opened => exact ⟨s, v, .start, represents⟩
  | job _ step ih =>
    obtain ⟨t, w, run, now⟩ := ih
    exact ⟨t, w, run, now.others step⟩
  | returned _ bounded path ih =>
    obtain ⟨t, w, run, now⟩ := ih
    obtain ⟨m, x, ⟨settles, rfl⟩, later⟩ := now.returned bounded path
    exact ⟨_, x, run.call _ settles, later.represents⟩
  | threw _ bounded path ih =>
    obtain ⟨t, w, _, now⟩ := ih
    exact (now.inv.notThrown now.settled bounded path).elim

/-- Every session of a database is a run of the store on its directory: the same
answers, and at the end the same tables in the same places. -/
theorem session_refines_store (disk : Disk files tables logs) (opened : Opened cfg fmt permit files start)
    (session : Session cfg fmt permit start events db) :
    ∃ memory t w, LogsLoad fmt logs memory ∧ Store.Run cfg permit (Store.ofDisk tables logs memory) events t ∧
      Represents cfg fmt permit t w db := by
  obtain ⟨memory, loads⟩ := opened.loads disk
  obtain ⟨v, represents⟩ := opened.represents disk loads
  obtain ⟨t, w, run, now⟩ := session.storeRun represents
  exact ⟨memory, t, w, loads, run, now⟩

/-- Also the compaction that brings a removed key back is a step of the store. -/
theorem session_refines_store_sample : ∃ events db t w,
    events.map Prod.snd = [.ok none, .ok none, .ok none, .ok none, .ok none, .ok (some oldString)] ∧
      Store.Run sessionConfig anyCompaction (Store.ofDisk [] [] []) events t ∧
      Represents sessionConfig transactionLog anyCompaction t w db := by
  have played : (play sessionConfig transactionLog (opened sessionConfig transactionLog) resurrectingScript).map
      (fun result => result.1.map Prod.snd) =
        some [.ok none, .ok none, .ok none, .ok none, .ok none, .ok (some oldString)] := by decide +kernel
  obtain ⟨⟨events, db⟩, run, answers⟩ := Option.map_eq_some_iff.mp played
  have session : Session sessionConfig transactionLog anyCompaction (opened sessionConfig transactionLog)
      events db := play_session .opened (permitted_of fun _ _ _ => trivial) run
  obtain ⟨memory, t, w, loads, run, represents⟩ := session_refines_store disk_empty opened_opened session
  cases loads
  exact ⟨events, db, t, w, answers, run, represents⟩

end ProjectDbImpl
end ProjectDb
