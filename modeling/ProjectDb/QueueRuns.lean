import ProjectDb.Replacement
import ProjectDb.Isolation
import ProjectDb.Session

namespace ProjectDb

/-- The window of a compaction that starts at a position. -/
def windowOf (cfg : Config) (tables : List SSTable) (start : Nat) : List SSTable :=
  (tables.drop start).take (cfg.numSSTableToCompact.toNat + 1)

/-- The tables of the queue and the start index after a compaction. -/
def afterCompaction (cfg : Config) (tables : List SSTable) (start : Nat) : List SSTable × Nat :=
  (tables.take start ++ (groupsOfTables cfg (windowOf cfg tables start)).map mergeGroup ++
      tables.drop (start + (cfg.numSSTableToCompact.toNat + 1)),
    start + (groupsOfTables cfg (windowOf cfg tables start)).length - 1)

/-- What happens to the tables of the queue and to the start index: a table is
handed over, or a permitted window is compacted. -/
inductive QueueStep (cfg : Config) (permit : List SSTable → Nat → Prop) :
    List SSTable × Nat → List SSTable × Nat → Prop
  | hand (tables : List SSTable) (start : Nat) (s : SSTable) :
      QueueStep cfg permit (tables, start) (tables ++ [s], start)
  | compact {tables : List SSTable} {start : Nat} : permit tables start →
      start + cfg.numSSTableToCompact.toNat < tables.length →
      QueueStep cfg permit (tables, start) (afterCompaction cfg tables start)

abbrev QueueRun (cfg : Config) (permit : List SSTable → Nat → Prop) : List SSTable × Nat → List SSTable × Nat → Prop :=
  Relation.ReflTransGen (QueueStep cfg permit)

variable {cfg : Config} {fmt : LogFormat} {permit : List SSTable → Nat → Prop} {v w : View} {n : Nat}

theorem QueueRun.hand_all (tables more : List SSTable) (start : Nat) :
    QueueRun cfg permit (tables, start) (tables ++ more, start) := by
  induction more generalizing tables with
  | nil =>
    rw [List.append_nil]
  | cons s more ih =>
    have rest := ih (tables ++ [s])
    rw [List.append_assoc, List.singleton_append] at rest
    exact .head (.hand tables start s) rest

/-- An installation does to the queue what a compaction does to its tables. -/
theorem Install.afterCompaction {I : Install} (groups : I.merged.map Prod.fst = groupsOfRange cfg I.window)
    (wide : I.window.length = cfg.numSSTableToCompact.toNat + 1) :
    ProjectDb.afterCompaction cfg (I.before.map Prod.snd) I.below.length =
      (I.after.map Prod.snd, I.below.length + I.merged.length - 1) := by
  have below : (I.below.map Prod.snd).length = I.below.length := List.length_map _
  have window : (I.window.map Prod.snd).length = cfg.numSSTableToCompact.toNat + 1 := by rw [List.length_map, wide]
  have front : (I.below.map Prod.snd ++ I.window.map Prod.snd).length =
      I.below.length + (cfg.numSSTableToCompact.toNat + 1) := by rw [List.length_append, below, window]
  have tables : I.before.map Prod.snd = I.below.map Prod.snd ++ I.window.map Prod.snd ++ I.above.map Prod.snd := by
    rw [Install.before, List.map_append, List.map_append]
  have cut : windowOf cfg (I.before.map Prod.snd) I.below.length = I.window.map Prod.snd := by
    rw [windowOf, tables, List.append_assoc, List.drop_left' below, List.take_left' window]
  have count : (groupsOfTables cfg (I.window.map Prod.snd)).length = I.merged.length := by
    rw [← groupsOfRange_tables, List.length_map, ← groups, List.length_map]
  have low : (I.before.map Prod.snd).take I.below.length = I.below.map Prod.snd := by
    rw [tables, List.append_assoc, List.take_left' below]
  rw [ProjectDb.afterCompaction, cut, count, ← Install.tables_installed groups, low, tables, List.drop_left' front,
    Install.after, List.map_append, List.map_append]

namespace ProjectDbImpl
variable {start db next : ProjectDbImpl} {origin : List SSTable × Nat}

/-- The tables of the queue, with the start index. -/
def tablesAndStart (v : View) (db : ProjectDbImpl) : List SSTable × Nat :=
  (v.queue.map Prod.snd, db.ssTableIndexQueue.compactionStartIndex)

theorem Others.tablesAndStart (step : Others cfg permit db next) (v : View) :
    ProjectDbImpl.tablesAndStart v next = ProjectDbImpl.tablesAndStart v db := by
  rw [ProjectDbImpl.tablesAndStart, step.ssTableIndexQueue, ProjectDbImpl.tablesAndStart]

/-- The queue of a settled state has come about in a run from the origin. -/
def Advanced (cfg : Config) (permit : List SSTable → Nat → Prop) (origin : List SSTable × Nat) (n : Nat)
    (db : ProjectDbImpl) : Prop :=
  ∃ v, v.Settled ∧ Ready cfg permit v n db ∧ QueueRun cfg permit origin (tablesAndStart v db)

theorem Advanced.assertion :
    Prog.Assertion (Others cfg permit) Anywhere (Advanced cfg permit origin n) where
  stable s t advanced step := by
    obtain ⟨v, settled, ready, run⟩ := advanced
    have lasts : Prog.Assertion (Others cfg permit) Anywhere (Ready cfg permit v n) := Ready.assertion fun _ _ => trivial
    refine ⟨v, settled, lasts.stable ready step, ?_⟩
    rwa [step.tablesAndStart v]
  within _ _ := trivial

/-- The check for a finished compaction is a step of the queue, or none. -/
theorem Collected.advanced {running : Bool} (collected : Collected cfg permit v n db running next) (settled : v.Settled) :
    ∃ w, (w.Settled ∧ QueueRun cfg permit (tablesAndStart v db) (tablesAndStart w next)) ∧ Ready cfg permit w n next ∧
      (running = false → next.ssTableCompactionFuture = none) := by
  cases collected with
  | absent _ ready idle same =>
    refine ⟨v, ⟨settled, ?_⟩, ready, fun _ => idle⟩
    rw [tablesAndStart, tablesAndStart, same]
  | running ready same =>
    refine ⟨v, ⟨settled, ?_⟩, ready, by simp⟩
    rw [tablesAndStart, tablesAndStart, same]
  | @replaced _ base job I installable begins replaced =>
    obtain ⟨compacted, _, _, _, permitted⟩ := installable
    refine ⟨{ v with queue := I.after }, ⟨⟨settled.handed, settled.taken⟩, ?_⟩, replaced.ready, fun _ => replaced.idle⟩
    have effect := Install.afterCompaction compacted.groups compacted.wide
    have inside : I.below.length + cfg.numSSTableToCompact.toNat < (v.queue.map Prod.snd).length := by
      have wide := compacted.wide
      rw [← compacted.before]
      simp only [Install.before, List.length_map, List.length_append]
      omega
    rw [compacted.before] at effect
    rw [← compacted.start] at permitted
    rw [tablesAndStart, tablesAndStart, ← begins, ← compacted.start, replaced.start, ← effect]
    exact .single (.compact permitted inside)

section Start

/-- Where the next compaction starts. -/
abbrev startIndex (db : ProjectDbImpl) : Nat := db.ssTableIndexQueue.compactionStartIndex

theorem takeFlush_start (s : ProjectDbImpl) : startIndex (takeFlush.left s) = startIndex s := by
  refine EStateM.left_bind_same rfl fun db t run => ?_
  cases run
  cases s.flushToDiskFutures with
  | nil => rfl
  | cons job rest =>
    dsimp only
    cases job.future with
    | running => rfl
    | consumed => rfl
    | ready result =>
      refine EStateM.left_bind_same rfl fun _ t _ => ?_
      cases result with
      | error e => rfl
      | ok index =>
        refine EStateM.left_bind_same ?_ fun _ _ _ => rfl
        exact file_left _ startIndex t fun _ => rfl

theorem pop_start (s : ProjectDbImpl) : startIndex (MemTableQueue.pop.left s) = startIndex s := by
  refine EStateM.left_bind_same rfl fun db t run => ?_
  cases run
  cases s.memTableQueue with
  | nil => rfl
  | cons front rest =>
    refine EStateM.left_bind_same rfl fun _ t _ => ?_
    exact file_left _ startIndex t fun _ => rfl

theorem pass_start : pass.Keeps startIndex := by
  refine Prog.Keeps.bind (Prog.Keeps.atomic takeFlush_start) fun polled => ?_
  cases polled with
  | absent => trivial
  | pending => trivial
  | done index =>
    refine Prog.Keeps.bind (Prog.Keeps.atomic fun s => ?_) fun _ => trivial
    exact EStateM.left_bind_same rfl fun _ t _ => EStateM.left_bind_same (pop_start t) fun _ u _ => rfl

theorem drain_start (futures : Nat) : (drain futures).Keeps startIndex := by
  induction futures with
  | zero => trivial
  | succ futures ih =>
    refine pass_start.bind fun handedOver => ?_
    cases handedOver with
    | true => exact ih
    | false => trivial

theorem launchCompaction_start : (Prog.atomic (launchCompaction cfg)).Keeps startIndex := by
  refine Prog.Keeps.atomic fun s => EStateM.left_bind_same ?_ fun job t _ => ?_
  · rcases tryLaunchCompaction_eq cfg s with none | ⟨_, some⟩
    · simp only [EStateM.left, none]
    · simp only [EStateM.left, some]
  · cases job <;> rfl

theorem checkFlushToDiskFutures_start : (checkFlushToDiskFutures cfg).Keeps startIndex :=
  (Prog.Keeps.read _).bind fun futures => (drain_start futures).bind fun _ => launchCompaction_start

theorem Others.startIndex (step : Others cfg permit db next) :
    ProjectDbImpl.startIndex next = ProjectDbImpl.startIndex db := by
  rw [ProjectDbImpl.startIndex, step.ssTableIndexQueue]

end Start

section Calls

theorem Ready.advance (ready : Ready cfg permit v n db) (settled : v.Settled) :
    (ProjectDbImpl.checkFutures cfg).Safe (Others cfg permit) Anywhere (fun _ => False)
      (fun _ => Advanced cfg permit (tablesAndStart v db) n) db := by
  refine Prog.Safe.bind ready.collect fun running t collected => ?_
  obtain ⟨w, ⟨still, run⟩, ready, idle⟩ := collected.advanced settled
  cases running with
  | true => exact Prog.Safe.ret (Q := fun _ => Advanced cfg permit _ n) Advanced.assertion ⟨w, still, ready, run⟩
  | false =>
    have drains : Prog.Safe (Others cfg permit) Anywhere (fun _ => False) (fun _ u => ∃ x, Drained w x ∧ Ready cfg permit x n u)
        (ProjectDbImpl.checkFlushToDiskFutures cfg) t := (ready.checkFlushToDiskFutures still (idle rfl)).weaken fun _ _ => trivial
    refine (drains.keep checkFlushToDiskFutures_start fun _ _ => Others.startIndex).mono fun _ u holds => ?_
    obtain ⟨⟨x, drained, later⟩, same⟩ := holds
    obtain ⟨xs, queue, _⟩ := drained.moved
    refine ⟨x, drained.settled, later, run.trans ?_⟩
    rw [tablesAndStart, tablesAndStart, queue, List.map_append]
    change QueueRun cfg permit _ (_, startIndex u)
    rw [same]
    exact .hand_all _ _ _

/-- A step that leaves the tables of the queue alone. -/
theorem Advanced.aside {m : Nat} {w : View} (ready : Ready cfg permit w m next)
    (run : QueueRun cfg permit origin (tablesAndStart v db)) (settled : v.Settled)
    (handed : w.handed = v.handed) (taken : w.taken = v.taken) (tables : w.queue.map Prod.snd = v.queue.map Prod.snd)
    (start : startIndex next = startIndex db) : Advanced cfg permit origin m next := by
  refine ⟨w, ⟨handed.trans settled.handed, taken.trans settled.taken⟩, ready, ?_⟩
  rw [tablesAndStart, tables]
  change QueueRun cfg permit _ (_, startIndex next)
  rwa [start]

theorem Advanced.find (advanced : Advanced cfg permit origin n db) (key : StdString) :
    ∃ answer next, ProjectDbImpl.find cfg key db = .ok answer next ∧ Advanced cfg permit origin n next := by
  obtain ⟨v, settled, ready, run⟩ := advanced
  obtain ⟨ys, found, same, inv⟩ := ready.inv.find key
  exact ⟨_, _, found, .aside ⟨inv, ready.sstRoom, ready.txlRoom⟩ run settled rfl rfl same.tables.symm rfl⟩

theorem Advanced.prepare (advanced : Advanced cfg permit origin (n + 1) db) :
    ∃ next, MemTableQueue.prepare db = .ok () next ∧ next.memTableQueue ≠ [] ∧ Advanced cfg permit origin n next := by
  obtain ⟨v, settled, ⟨inv, sstRoom, txlRoom⟩, run⟩ := advanced
  rcases inv.prepare (by omega) with ⟨some, same⟩ | ⟨_, made, emplaced⟩
  · exact ⟨db, same, some, .aside ⟨inv, by omega, by omega⟩ run settled rfl rfl rfl rfl⟩
  · refine ⟨_, made, by simp [ProjectDbImpl.emplaced], .aside ⟨emplaced, ?_, ?_⟩ run settled rfl rfl rfl rfl⟩
    · change db.ssTableFileCounterBase + n < 2 ^ 32
      omega
    · change db.transactionLogFileCounterBase + 1 + n < 2 ^ 32
      omega

theorem Advanced.append (advanced : Advanced cfg permit origin n db) (some : db.memTableQueue ≠ []) (fmt : LogFormat)
    (op : Operation) : ∃ next, MemTableQueue.append fmt op db = .ok () next ∧ next.memTableQueue ≠ [] ∧
      Advanced cfg permit origin n next := by
  obtain ⟨v, settled, ready, run⟩ := advanced
  obtain ⟨_, _, _, _, _, _, _, appended, inv⟩ := ready.inv.append fmt some op
  exact ⟨_, appended, some, .aside ⟨inv, ready.sstRoom, ready.txlRoom⟩ run settled rfl rfl rfl rfl⟩

theorem Advanced.launchFlush (advanced : Advanced cfg permit origin (n + 1) db) (some : db.memTableQueue ≠ []) :
    ∃ next, ProjectDbImpl.launchFlush cfg db = .ok () next ∧ Advanced cfg permit origin n next := by
  obtain ⟨v, settled, ⟨inv, sstRoom, txlRoom⟩, run⟩ := advanced
  rcases inv.launchFlush some (by omega) (by omega) with same | ⟨e, launches, launched⟩
  · exact ⟨db, same, .aside ⟨inv, by omega, by omega⟩ run settled rfl rfl rfl rfl⟩
  · refine ⟨_, launches, .aside ⟨launched, ?_, ?_⟩ run settled rfl rfl rfl rfl⟩
    · change db.ssTableFileCounterBase + 1 + n < 2 ^ 32
      omega
    · change db.transactionLogFileCounterBase + 1 + n < 2 ^ 32
      omega

theorem Ready.advance_write (ready : Ready cfg permit v (n + 2) db) (settled : v.Settled) (fmt : LogFormat)
    (op : Operation) : (ProjectDbImpl.write cfg fmt op).Safe (Others cfg permit) Anywhere (fun _ => False)
      (fun _ => Advanced cfg permit (tablesAndStart v db) n) db := by
  have writable (m : Nat) : Prog.Assertion (Others cfg permit) Anywhere fun t =>
      Advanced cfg permit (tablesAndStart v db) m t ∧ t.memTableQueue ≠ [] :=
    Advanced.assertion.and fun _ _ some step => step.memTableQueue ▸ some
  refine (ready.advance settled).bind fun _ t advanced => ?_
  refine Prog.Safe.bind (Prog.Safe.bind (Prog.Safe.atomic (Q := fun _ t => Advanced cfg permit _ (n + 1) t ∧ _)
    Advanced.assertion (fun _ => writable (n + 1)) advanced fun u now => ?_) fun _ u prepared => Prog.Safe.atomic
      (Q := fun _ t => Advanced cfg permit _ (n + 1) t ∧ _) (writable (n + 1)) (fun _ => writable (n + 1)) prepared
      fun x now => ?_) fun _ u appended => Prog.Safe.atomic (Q := fun _ => Advanced cfg permit _ n) (writable (n + 1))
        (fun _ => Advanced.assertion) appended fun x now => ?_
  · obtain ⟨next, run, some, holds⟩ := Advanced.prepare now
    exact ⟨(), next, run, holds, some⟩
  · obtain ⟨next, run, some, holds⟩ := now.1.append now.2 fmt op
    exact ⟨(), next, run, holds, some⟩
  · obtain ⟨next, run, holds⟩ := now.1.launchFlush now.2
    exact ⟨(), next, run, holds⟩

/-- A call among the steps of the jobs takes the tables of the queue through a run. -/
theorem Ready.advance_call (ready : Ready cfg permit v (n + 2) db) (settled : v.Settled) (fmt : LogFormat) (call : Call) :
    (call.prog cfg fmt).Safe (Others cfg permit) Anywhere (fun _ => False)
      (fun _ => Advanced cfg permit (tablesAndStart v db) n) db := by
  have silent (t : ProjectDbImpl) (holds : Advanced cfg permit (tablesAndStart v db) n t) :
      (pure none : DbProg (Option StdString)).Safe (Others cfg permit) Anywhere (fun _ => False)
        (fun _ => Advanced cfg permit (tablesAndStart v db) n) t :=
    Prog.Safe.ret (Q := fun _ => Advanced cfg permit _ n) Advanced.assertion holds
  cases call with
  | get key =>
    refine ((ready.mono (Nat.le_add_right n 2)).advance settled).bind fun _ t holds => ?_
    exact Prog.Safe.atomic (Q := fun _ => Advanced cfg permit _ n) Advanced.assertion (fun _ => Advanced.assertion) holds
      fun u now => now.find key
  | set key value => exact (ready.advance_write settled fmt (.set key value)).bind fun _ t holds => silent t holds
  | remove key => exact (ready.advance_write settled fmt (.remove key)).bind fun _ t holds => silent t holds

end Calls

/-- In a session the tables of the queue and the start index go through a run of
the queue. -/
theorem Session.queueRun {events : List Event} (session : Session cfg fmt permit start events db)
    (inv : Inv cfg permit v start) (settled : v.Settled) :
    ∃ w, (Inv cfg permit w db ∧ w.Settled) ∧ QueueRun cfg permit (tablesAndStart v start) (tablesAndStart w db) := by
  induction session with
  | opened => exact ⟨v, ⟨inv, settled⟩, .refl⟩
  | @job _ s t _ step ih =>
    obtain ⟨w, ⟨now, still⟩, run⟩ := ih
    refine ⟨w, ⟨now.others step, still⟩, ?_⟩
    rwa [step.tablesAndStart w]
  | returned _ bounded path ih =>
    obtain ⟨w, ⟨now, still⟩, run⟩ := ih
    obtain ⟨x, later, ready, more⟩ := (((now.ready bounded).advance_call still fmt _).reaches path).returned
    exact ⟨x, ⟨ready.inv, later⟩, run.trans more⟩
  | threw _ bounded path ih =>
    obtain ⟨w, ⟨now, still⟩, _⟩ := ih
    exact (now.notThrown still bounded path).elim

end ProjectDbImpl
end ProjectDb
