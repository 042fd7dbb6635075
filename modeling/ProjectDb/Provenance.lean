import ProjectDb.Durability
import ProjectDb.Versions

namespace ProjectDb

open ProjectDbImpl (Call Event)

namespace Store
variable {cfg : Config} {permit : List SSTable → Nat → Prop} {s x : Store} {ops : List Operation} {key : Key}
  {older : List Value} {call : Call}

theorem Descends.before (descends : Descends older key ops s) (comes : Before cfg permit call s x) :
    Descends older key ops x := by
  cases comes with
  | settled settles => exact descends.settles settles
  | prepared settles _ => exact (descends.settles settles).of_entries (entries_prepare _ key)

theorem Descends.more (descends : Descends older key ops s) (more : List Operation) :
    Descends older key (ops ++ more) s := by
  rw [Descends, writtenTo_append, ← List.append_assoc]
  exact List.Sublist.trans descends (List.sublist_append_left _ _)

theorem Descends.after (descends : Descends older key ops s) (comes : After cfg permit call s x) :
    Descends older key (ops ++ call.operation.toList) x := by
  have written {m : Store} {op : Operation} (settles : Settles cfg permit s m) :
      Descends older key (ops ++ [op]) (m.prepare.append op) := by
    obtain ⟨earlier, l, queue⟩ := m.prepare_memTables
    have prepared := (descends.settles settles).of_entries (entries_prepare m key)
    exact prepared.append (by simp [queue])
  cases comes with
  | appended settles operation =>
    rw [operation]
    exact written settles
  | rolled settles operation =>
    rw [operation]
    exact (written settles).of_entries (entries_roll cfg _ key)

end Store

namespace ProjectDbImpl

def Request.call : Request → Call
  | .completed event => event.1
  | .interrupted call => call

/-- What has been asked to be written. -/
def requested (past : List Request) : List Operation := (past.map Request.call).filterMap Call.operation

/-- Every value that has been answered for a key has been set before, or is known of it. -/
def Explained (known : Key → List Value) (past : List Request) : Prop :=
  ∀ earlier key value later, past = earlier ++ .completed (.get key, .ok (some value)) :: later →
    Call.set key value ∈ earlier.map Request.call ∨ ∃ v ∈ known ⟨key⟩, v.underlyingValue = some value

variable {cfg : Config} {fmt : LogFormat} {permit : List SSTable → Nat → Prop} {v w : View} {s x : Store}
  {first files : Files} {tables : List (Nat × SSTable)} {logs : List (Nat × List Byte)} {memory : List Table}
  {start db t : ProjectDbImpl} {past : List Request} {events : List Event}

theorem requested_append (past : List Request) (events : List Event) :
    requested (past ++ events.map .completed) = requested past ++ writesOf events := by
  rw [requested, List.map_append, List.filterMap_append, ← requested, writesOf_eq, List.map_map]
  rfl

theorem requested_interrupted (past : List Request) (call : Call) :
    requested (past ++ [.interrupted call]) = requested past ++ call.operation.toList := by
  rw [requested, List.map_append, List.filterMap_append, ← requested]
  cases operation : call.operation <;> simp [Request.call, operation]

/-- The directory can be loaded, and has no entries but these. -/
def Keeps (fmt : LogFormat) (files : Files) (entries : Key → List Value) : Prop :=
  ∃ tables logs memory, Disk files tables logs ∧ LogsLoad fmt logs memory ∧
    ∀ key, storedVersions tables memory key ⊆ entries key

theorem Keeps.mono {entries more : Key → List Value} (keeps : Keeps fmt files entries)
    (fewer : ∀ key, entries key ⊆ more key) : Keeps fmt files more := by
  obtain ⟨tables, logs, memory, disk, loads, known⟩ := keeps
  exact ⟨tables, logs, memory, disk, loads, fun key => List.Subset.trans (known key) (fewer key)⟩

theorem storedVersions_eq (key : Key) : storedVersions tables memory key =
    history (((tables.map fun t => t.2.table) ++ memory).map fun table => table.find? key) := by
  rw [storedVersions, List.map_append, List.map_map]
  rfl

theorem versions_subset {layers more : List Table} (fewer : layers ⊆ more) (key : Key) :
    history (layers.map fun table => table.find? key) ⊆ history (more.map fun table => table.find? key) :=
  List.filterMap_subset _ (List.map_subset _ fewer)

/-- A table that has been handed over is among the tables with its log. -/
theorem Shows.keeps (shows : Shows cfg fmt permit s v t) (free : ¬ t.CompactionTaken) (bounded : t.Bounded)
    (back : LogsLoadBack fmt t) : Keeps fmt t.files s.entries := by
  obtain ⟨inv, lined, queue, _⟩ := shows.tables free
  have weak : Inv cfg anyCompaction v t := inv.weaken fun _ _ _ => trivial
  refine ⟨_, v.logs, v.memory, weak.directory bounded, weak.logsLoad back, fun key => ?_⟩
  have layers : s.layers = tablesOf v.queue ++ v.memory := by
    rw [Store.layers, ← queue, shows.memory.memory, tablesOf_eq]
  rw [storedVersions_eq, shelf_tables, View.shelf, tablesOf_append, lined, Store.entries, layers]
  refine versions_subset (List.append_subset.mpr ⟨?_, List.subset_append_right _ _⟩) key
  refine List.append_subset.mpr ⟨List.subset_append_left _ _, ?_⟩
  exact List.Subset.trans (List.take_subset _ _) (List.subset_append_right _ _)

theorem groups_sublist (tables : List SSTable) (window : Nat) (key : Key) :
    (history (((compactionGroups cfg tables window (cfg.numSSTableToCompact.toNat + 1)).map
      fun group => (mergeGroup group).table).map fun table => table.find? key)).Sublist
      (history (tables.map fun s => s.table.find? key)) := by
  rw [Store.groupAnswers_groups, ← Store.groupAnswers_flatten cfg tables window key]
  exact survivors_sublist _

theorem Represents.closed_keeps (represents : Represents cfg fmt permit s v db) (bounded : db.Bounded)
    (path : Prog.Reaches (Others cfg anyCompaction) (destroy cfg) db (.ret ()) t) (back : LogsLoadBack fmt t) :
    Keeps fmt t.files s.entries := by
  have inv : Inv cfg anyCompaction v db := represents.inv.weaken fun _ _ _ => trivial
  obtain ⟨w, result, later, small⟩ := inv.closes represents.settled bounded path
  refine ⟨_, w.logs, w.memory, later.directory small, later.logsLoad back, fun key => ?_⟩
  have left : tablesOf w.shelf ++ w.memory = tablesOf w.queue ++ v.memory := by
    rw [View.shelf, tablesOf_append, List.append_assoc, result.moved, represents.settled.handed]
    rfl
  have compacted : history ((tablesOf w.queue).map fun table => table.find? key) ⊆
      history (s.ssTables.map fun s => s.table.find? key) := by
    cases pends : db.pendingStart with
    | none =>
      rw [result.kept pends, tablesOf_eq, represents.queue, List.map_map]
      exact fun _ member => member
    | some window =>
      rw [result.compacted window pends, represents.queue]
      exact (groups_sublist s.ssTables window key).subset
  rw [storedVersions_eq, shelf_tables, left, List.map_append, history_append, Store.entries_eq]
  refine List.append_subset.mpr ⟨List.Subset.trans compacted (List.subset_append_left _ _), ?_⟩
  rw [represents.memory.memory, List.map_map]
  exact List.subset_append_right _ _

section Known
variable {known : Key → List Value} {asked ops : List Operation} {key : Key}

theorem known_of_descends (descends : Store.Descends (s.entries key) key ops x)
    (earlier : s.entries key ⊆ known key ++ writtenTo key asked) :
    x.entries key ⊆ known key ++ writtenTo key (asked ++ ops) := by
  intro e member
  rw [writtenTo_append, ← List.append_assoc]
  rcases List.mem_append.mp (descends.subset member) with old | new
  · exact List.mem_append_left _ (earlier old)
  · exact List.mem_append_right _ new

theorem append_eq_cons_cases {α : Type} {xs ys earlier later : List α} {x : α} (split : xs ++ ys = earlier ++ x :: later) :
    (∃ more, earlier = xs ++ more ∧ ys = more ++ x :: later) ∨ ∃ more, xs = earlier ++ x :: more := by
  rcases List.append_eq_append_iff.mp split with ⟨more, front, rest⟩ | ⟨more, front, rest⟩
  · exact Or.inl ⟨more, front, rest⟩
  · cases more with
    | nil => exact Or.inl ⟨[], by simp [front], rest.symm⟩
    | cons y more =>
      obtain ⟨rfl, _⟩ := List.cons.inj rest
      exact Or.inr ⟨more, front⟩

/-- The values that a run answers are explained by the values that it starts with. -/
theorem Explained.run (explained : Explained known past) (run : Store.Run cfg permit s events x)
    (known_before : ∀ key, s.entries key ⊆ known key ++ writtenTo key (requested past)) :
    Explained known (past ++ events.map .completed) := by
  intro earlier key value later split
  rcases append_eq_cons_cases split with ⟨more, rfl, rest⟩ | ⟨more, inside⟩
  · obtain ⟨done, others, rfl, rfl, same⟩ := List.map_eq_append_iff.mp rest
    obtain ⟨event, left, rfl, answered, rfl⟩ := List.map_eq_cons_iff.mp same
    cases answered
    obtain ⟨v, member, live⟩ := run.answered
    rw [List.map_append, List.map_map]
    rcases List.mem_append.mp member with old | new
    · rcases List.mem_append.mp (known_before ⟨key⟩ old) with stored | written
      · exact Or.inr ⟨v, stored, live⟩
      · exact Or.inl (List.mem_append_left _ (set_of_written written live))
    · exact Or.inl (List.mem_append_right _ (set_of_written (writesOf_eq done ▸ new) live))
  · exact explained earlier key value more inside

theorem Explained.interrupted (explained : Explained known past) (call : Call) :
    Explained known (past ++ [.interrupted call]) := by
  intro earlier key value later split
  rcases append_eq_cons_cases split with ⟨more, rfl, rest⟩ | ⟨more, inside⟩
  · cases more with
    | nil => cases rest
    | cons _ more => simp at rest
  · exact explained earlier key value more inside

end Known

/-- Whatever is compacted: the directories that processes leave keep nothing but what was in
the first one and what has been asked to be written, and nothing else has been answered. -/
theorem Lives.keeps {permit : Config → List SSTable → Nat → Prop} (lives : Lives fmt permit first files past)
    (disk : Disk first tables logs) (loads : LogsLoad fmt logs memory) :
    Keeps fmt files (fun key => storedVersions tables memory key ++ writtenTo key (requested past)) ∧
      Explained (storedVersions tables memory) past := by
  induction lives with
  | start =>
    refine ⟨⟨tables, logs, memory, disk, loads, fun key => List.subset_append_left _ _⟩, ?_⟩
    intro earlier key value later split
    simp at split
  | @stopped cfg files past start db t events call rest _ opened session bounded path free later back ih =>
    obtain ⟨⟨tables', logs', memory', disk', loads', fewer⟩, explained⟩ := ih
    obtain ⟨v, represents⟩ := opened.represents disk' loads'
    obtain ⟨s, w, run, now⟩ := session.storeRun represents
    have origin (key : Key) : (Store.ofDisk tables' logs' memory').entries key ⊆ _ :=
      entries_ofDisk tables' loads' key ▸ fewer key
    refine ⟨?_, (explained.run run origin).interrupted call⟩
    have asked : requested (past ++ events.map .completed ++ [.interrupted call]) =
        requested past ++ (writesOf events ++ call.operation.toList) := by
      rw [requested_interrupted, requested_append, List.append_assoc]
    rw [asked]
    rcases (now.commits bounded _).reaches path with unwritten | written
    · obtain ⟨x, y, before, shows⟩ := unwritten.now
      refine (shows.keeps free later back).mono fun key => ?_
      exact known_of_descends (((run.descends key).before before).more _) (origin key)
    · obtain ⟨x, y, after, shows⟩ := written.now
      refine (shows.keeps free later back).mono fun key => ?_
      exact known_of_descends ((run.descends key).after after) (origin key)
  | @closed cfg files past start db t events _ opened session bounded _ path back ih =>
    obtain ⟨⟨tables', logs', memory', disk', loads', fewer⟩, explained⟩ := ih
    obtain ⟨v, represents⟩ := opened.represents disk' loads'
    obtain ⟨s, w, run, now⟩ := session.storeRun represents
    have origin (key : Key) : (Store.ofDisk tables' logs' memory').entries key ⊆ _ :=
      entries_ofDisk tables' loads' key ▸ fewer key
    refine ⟨?_, explained.run run origin⟩
    rw [requested_append]
    exact (now.closed_keeps bounded path back).mono fun key => known_of_descends (run.descends key) (origin key)
  | @opening cfg files past now ssTableBase transactionLogBase rest t _ low path ih =>
    obtain ⟨⟨tables', logs', memory', disk', loads', fewer⟩, explained⟩ := ih
    have still := ((init_safe disk' loads' now transactionLogBase low.le).reaches path).now
    exact ⟨⟨tables', logs', memory', still, loads', fewer⟩, explained⟩

/-- Nothing is invented: whatever is compacted, and whenever processes stop, every value that is
answered for a key has been set for it before, if only by a call that was under way when
its process stopped, or was in the first directory; and so has every entry. -/
theorem nothing_invented {permits : Config → List SSTable → Nat → Prop} (disk : Disk first tables logs)
    (loads : LogsLoad fmt logs memory) (lives : Lives fmt permits first files past)
    (opened : Opened cfg fmt permit files start) (session : Session cfg fmt permit start events db) :
    Explained (storedVersions tables memory) (past ++ events.map .completed) ∧
      ∃ xs, OnDisk db.files db.ssTableIndexQueue.queue xs ∧ ∀ key,
        versions xs db key ⊆ storedVersions tables memory key ++ writtenTo key (requested past ++ writesOf events) := by
  obtain ⟨⟨tables', logs', memory', disk', loads', fewer⟩, explained⟩ := lives.keeps disk loads
  obtain ⟨v, represents⟩ := opened.represents disk' loads'
  obtain ⟨s, w, run, now⟩ := session.storeRun represents
  have origin (key : Key) : (Store.ofDisk tables' logs' memory').entries key ⊆ _ :=
    entries_ofDisk tables' loads' key ▸ fewer key
  refine ⟨explained.run run origin, w.queue, now.inv.onDisk, fun key => ?_⟩
  rw [now.versions]
  exact known_of_descends (run.descends key) (origin key)

/-- The directory of a process that has stopped is opened, and nothing has been invented. -/
theorem nothing_invented_sample : ∃ t recovered,
    Lives transactionLog Harmless ∅ t (harmlessEvents.map .completed ++ [.interrupted (.remove otherKey)]) ∧
      (init sessionConfig transactionLog).run (fresh t 0 0 0) = .ok () recovered ∧
      Explained (storedVersions [] []) (harmlessEvents.map .completed ++ [.interrupted (.remove otherKey)]) := by
  obtain ⟨db, closed, reopened, t, _, _, lives⟩ := harmlessScript_lives
  obtain ⟨⟨tables, logs, memory, disk, loads, _⟩, _⟩ := lives.keeps disk_empty .nil
  obtain ⟨recovered, run⟩ := init_returns disk loads 0 (Nat.zero_le (2 ^ 31)) 0
  have opened : Opened sessionConfig transactionLog anyCompaction t.files recovered :=
    ⟨0, 0, 0, by decide, by decide, Prog.reaches_returns run⟩
  obtain ⟨explained, _⟩ := nothing_invented disk_empty .nil lives opened .opened
  rw [List.map_nil, List.append_nil] at explained
  exact ⟨t.files, recovered, lives, run, explained⟩

end ProjectDbImpl
end ProjectDb
