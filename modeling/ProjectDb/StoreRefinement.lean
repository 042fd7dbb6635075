import ProjectDb.Store

namespace ProjectDb
namespace ProjectDbImpl

variable {cfg : Config} {fmt : LogFormat} {permit : List SSTable → Nat → Prop} {s m : Store} {v w : View} {n : Nat}
  {db t : ProjectDbImpl}

/-- The MemTables of the store, with their logs, are those of a view. -/
structure MemoryOf (fmt : LogFormat) (s : Store) (v : View) : Prop where
  logs : v.logs.map Prod.snd = s.memTables.map (Layer.contents fmt)
  memory : v.memory = s.memTables.map Layer.current

/-- What is to be seen of the store at any time: the MemTables and their logs,
and the SSTables unless a compaction is being installed. -/
structure Shows (cfg : Config) (fmt : LogFormat) (permit : List SSTable → Nat → Prop) (s : Store) (v : View)
    (t : ProjectDbImpl) : Prop where
  memory : MemoryOf fmt s v
  flushing : Flushing v t
  logging : Logging v t
  tables : ¬ t.CompactionTaken → Inv cfg permit v t ∧ tablesOf v.handed = v.memory.take v.taken ∧
    v.queue.map Prod.snd = s.ssTables ∧ startIndex t = s.start

/-- The state stands for the store, between two actions that install nothing
and hand nothing over. -/
structure Stands (cfg : Config) (fmt : LogFormat) (permit : List SSTable → Nat → Prop) (s : Store) (v : View) (n : Nat)
    (t : ProjectDbImpl) : Prop where
  ready : Ready cfg permit v n t
  settled : v.Settled
  memory : MemoryOf fmt s v
  queue : v.queue.map Prod.snd = s.ssTables
  start : startIndex t = s.start

theorem Ready.shows (ready : Ready cfg permit v n t) (lined : tablesOf v.handed = v.memory.take v.taken)
    (memory : MemoryOf fmt s v) (queue : v.queue.map Prod.snd = s.ssTables) (start : startIndex t = s.start) :
    Shows cfg fmt permit s v t :=
  ⟨memory, ready.inv.flushing, ready.inv.logging, fun _ => ⟨ready.inv, lined, queue, start⟩⟩

theorem Stands.shows (stands : Stands cfg fmt permit s v n t) : Shows cfg fmt permit s v t :=
  stands.ready.shows stands.settled.lined stands.memory stands.queue stands.start

/-- While a compaction is being installed only the SSTables are hidden. -/
theorem Taken.shows (taken : Taken v n t) (memory : MemoryOf fmt s v) : Shows cfg fmt permit s v t :=
  ⟨memory, taken.flushing, taken.logging, fun free => absurd taken.consumed free⟩

/-- Whatever shows the store is among the states that are allowed. -/
def Allows (cfg : Config) (fmt : LogFormat) (permit : List SSTable → Nat → Prop) (always : ProjectDbImpl → Prop)
    (s : Store) : Prop :=
  ∀ v t, Shows cfg fmt permit s v t → always t

variable {always : ProjectDbImpl → Prop}

theorem Stands.assertion (allowed : Allows cfg fmt permit always s) :
    Prog.Assertion (Others cfg permit) always (Stands cfg fmt permit s v n) where
  stable t u stands step := by
    have lasts : Prog.Assertion (Others cfg permit) Anywhere (Ready cfg permit v n) := Ready.assertion fun _ _ => trivial
    exact ⟨lasts.stable stands.ready step, stands.settled, stands.memory, stands.queue, step.startIndex.trans stands.start⟩
  within t stands := allowed v t stands.shows

/-- The state stands for one of some stores. -/
def StandsAmong (cfg : Config) (fmt : LogFormat) (permit : List SSTable → Nat → Prop) (P : Store → Prop) (n : Nat)
    (t : ProjectDbImpl) : Prop :=
  ∃ m v, P m ∧ Stands cfg fmt permit m v n t

variable {P : Store → Prop}

theorem StandsAmong.assertion (allowed : ∀ m, P m → Allows cfg fmt permit always m) :
    Prog.Assertion (Others cfg permit) always (StandsAmong cfg fmt permit P n) where
  stable t u among step := by
    obtain ⟨m, v, holds, stands⟩ := among
    exact ⟨m, v, holds, (Stands.assertion (allowed m holds)).stable stands step⟩
  within t among := by
    obtain ⟨m, v, holds, stands⟩ := among
    exact allowed m holds v t stands.shows

/-- The same with no compaction under way. -/
theorem StandsAmong.idle_assertion (allowed : ∀ m, P m → Allows cfg fmt permit always m) :
    Prog.Assertion (Others cfg permit) always fun t => StandsAmong cfg fmt permit P n t ∧ t.ssTableCompactionFuture = none :=
  (StandsAmong.assertion allowed).and fun _ _ idle step => step.idle.mpr idle

theorem StandsAmong.imp {Q : Store → Prop} (imp : ∀ m, P m → Q m) (among : StandsAmong cfg fmt permit P n t) :
    StandsAmong cfg fmt permit Q n t := by
  obtain ⟨m, v, holds, stands⟩ := among
  exact ⟨m, v, imp m holds, stands⟩

section Collect

/-- What the check for a finished compaction leaves of a store: all of it,
unless there was a compaction that is not running any more. -/
inductive CollectedStore (cfg : Config) (permit : List SSTable → Nat → Prop) (s : Store) (absent : Prop) :
    Bool → Store → Prop
  | absent : absent → CollectedStore cfg permit s absent false s
  | pending : ¬ absent → CollectedStore cfg permit s absent true s
  | installed : ¬ absent → Store.Background cfg permit s (s.compacted cfg) →
      CollectedStore cfg permit s absent false (s.compacted cfg)

variable {absent : Prop} {running : Bool}

theorem CollectedStore.settles (collected : CollectedStore cfg permit s absent running m) :
    Store.Settles cfg permit s m := by
  cases collected with
  | absent => exact .refl
  | pending => exact .refl
  | installed _ compacts => exact .single compacts

/-- An installation replaces the SSTables of the store by those of a compaction. -/
theorem Installable.stands {base : ProjectDbImpl} {job : CompactionJob} {I : Install}
    (installable : Installable cfg permit v n base job I) (begins : job.beginIt = s.start)
    (queue : v.queue.map Prod.snd = s.ssTables) (settled : v.Settled) (memory : MemoryOf fmt s v)
    (replaced : Replaced cfg permit v n I t) :
    Store.Background cfg permit s (s.compacted cfg) ∧
      Stands cfg fmt permit (s.compacted cfg) { v with queue := I.after } n t := by
  obtain ⟨compacted, _, _, positive, permitted⟩ := installable
  have effect := Install.afterCompaction compacted.groups compacted.wide
  have inside : s.start + cfg.numSSTableToCompact.toNat < s.ssTables.length := by
    have wide := compacted.wide
    rw [← begins, ← compacted.start, ← queue, ← compacted.before]
    simp only [Install.before, List.length_map, List.length_append]
    omega
  rw [compacted.before, queue, compacted.start, begins] at effect
  rw [queue, begins] at permitted
  refine ⟨.compact permitted positive inside, replaced.ready, ⟨settled.handed, settled.taken⟩,
    ⟨memory.logs, memory.memory⟩, (congrArg Prod.fst effect).symm, ?_⟩
  rw [startIndex, replaced.start, compacted.start, begins]
  exact (congrArg Prod.snd effect).symm

/-- What the check for a finished compaction comes to. -/
def Collects (cfg : Config) (fmt : LogFormat) (permit : List SSTable → Nat → Prop) (s : Store) (n : Nat) (absent : Prop)
    (running : Bool) (t : ProjectDbImpl) : Prop :=
  StandsAmong cfg fmt permit (CollectedStore cfg permit s absent running) n t ∧
    (running = false → t.ssTableCompactionFuture = none)

/-- The same after the poll, with what is to be installed. -/
def Takes (cfg : Config) (fmt : LogFormat) (permit : List SSTable → Nat → Prop) (s : Store) (v : View) (n : Nat)
    (absent : Prop) : Polled (List SSTableIndex) → ProjectDbImpl → Prop
  | .absent, t => Collects cfg fmt permit s n absent false t
  | .pending, t => Collects cfg fmt permit s n absent true t
  | .done merged, t => ∃ base job I, (Installable cfg permit v n base job I ∧ job.beginIt = s.start ∧
      merged = I.merged.map Prod.snd ∧ ¬ absent) ∧ I.At base.files (Taken v n) 0 0 ⟨I.before.map Prod.fst, I.below.length⟩ t

variable (allowed : ∀ m, Store.Settles cfg permit s m → Allows cfg fmt permit always m)
include allowed

theorem Collects.assertion (absent : Prop) (running : Bool) :
    Prog.Assertion (Others cfg permit) always (Collects cfg fmt permit s n absent running) :=
  (StandsAmong.assertion fun m collected => allowed m collected.settles).and
    fun _ _ idle step ended => step.idle.mpr (idle ended)

theorem Takes.assertion (memory : MemoryOf fmt s v) (absent : Prop) (polled : Polled (List SSTableIndex)) :
    Prog.Assertion (Others cfg permit) always (Takes cfg fmt permit s v n absent polled) := by
  cases polled with
  | absent => exact Collects.assertion allowed absent false
  | pending => exact Collects.assertion allowed absent true
  | done merged =>
    refine ⟨?_, ?_⟩
    · rintro t u ⟨base, job, I, known, at_⟩ step
      have lasts : Prog.Assertion (Others cfg permit) Anywhere _ :=
        known.1.assertion (fun _ _ _ => trivial) 0 0 ⟨I.before.map Prod.fst, I.below.length⟩
      exact ⟨base, job, I, known, lasts.stable at_ step⟩
    · rintro t ⟨base, job, I, _, at_⟩
      exact allowed s .refl v t (at_.kept.shows memory)

theorem Stands.collect (stands : Stands cfg fmt permit s v n db) :
    (checkSSTableCompactionFuture cfg).Safe (Others cfg permit) always (fun _ => False)
      (Collects cfg fmt permit s n (db.ssTableCompactionFuture = none)) db := by
  obtain ⟨_, settled, memory, queue, _⟩ := id stands
  have taking (t : ProjectDbImpl) (taken : Taken v n t) : always t := allowed s .refl v t (taken.shows memory)
  have before : Prog.Assertion (Others cfg permit) always fun t => Stands cfg fmt permit s v n t ∧
      (t.ssTableCompactionFuture = none ↔ db.ssTableCompactionFuture = none) :=
    (Stands.assertion (allowed s .refl)).and fun _ _ same step => step.idle.trans same
  refine Prog.Safe.bind (Prog.Safe.atomic (Q := Takes cfg fmt permit s v n (db.ssTableCompactionFuture = none)) before
    (Takes.assertion allowed memory _) ⟨stands, Iff.rfl⟩ ?_) ?_
  · rintro t ⟨now, same⟩
    rcases now.ready.inv.takeCompaction with ⟨idle, run⟩ | ⟨running, run⟩ |
      ⟨job, I, launched, positive, run, compacted, begins, permitted⟩
    · exact ⟨_, _, run, ⟨s, v, .absent (same.mp idle), now⟩, fun _ => idle⟩
    · exact ⟨_, _, run, ⟨s, v, .pending (mt same.mpr running.launched), now⟩, by simp⟩
    · exact ⟨_, _, run, t, job, I, ⟨⟨compacted, now.ready.inv.shelved, compacted.named now.ready.inv, positive, permitted⟩,
        begins.trans now.start, rfl, mt same.mpr (launched ▸ Option.some_ne_none job)⟩, compacted.begin now.ready begins⟩
  · intro polled t after
    cases polled with
    | absent => exact Prog.Safe.ret (Collects.assertion allowed _ false) after
    | pending => exact Prog.Safe.ret (Collects.assertion allowed _ true) after
    | done merged =>
      obtain ⟨base, job, I, ⟨installable, begins, rfl, launched⟩, at_⟩ := after
      obtain ⟨compacted, shelved, named, positive, _⟩ := id installable
      have collected := Collects.assertion (n := n) allowed (db.ssTableCompactionFuture = none) false
      refine Prog.Safe.bind (Prog.Safe.weaken (Install.update_safe named (Taken.undisturbed v n) compacted.wide
        positive compacted.nonempty at_) fun u during => taking u during.1) fun _ u done => ?_
      refine Prog.Safe.bind (Prog.Safe.atomic
        (Q := fun _ => Collects cfg fmt permit s n (db.ssTableCompactionFuture = none) false)
        (installable.assertion (fun _ => taking) _ _ _) (fun _ => collected) done fun x now => ?_) fun _ u done =>
          Prog.Safe.ret collected done
      have ended : Inv cfg permit _ _ := compacted.finish shelved named now
      have replaced : Replaced cfg permit v n I { x with ssTableCompactionFuture := none } :=
        ⟨⟨ended, now.kept.sstRoom, now.kept.txlRoom⟩, rfl, congrArg (·.compactionStartIndex) now.queue⟩
      obtain ⟨compacts, installed⟩ := installable.stands begins queue settled memory replaced
      exact ⟨(), _, rfl, ⟨_, _, .installed launched compacts, installed⟩, fun _ => rfl⟩

end Collect

section Drain

/-- MemTables may have been handed over, and there is no compaction under way. -/
abbrev DrainedStore (cfg : Config) (fmt : LogFormat) (permit : List SSTable → Nat → Prop) (s : Store) (n : Nat)
    (t : ProjectDbImpl) : Prop :=
  StandsAmong cfg fmt permit (Store.Hands cfg s) n t ∧ t.ssTableCompactionFuture = none

/-- Between the poll of a flush and the hand-over of its table. -/
def TakesFlush (cfg : Config) (fmt : LogFormat) (permit : List SSTable → Nat → Prop) (s : Store) (v : View) (n : Nat) :
    Polled SSTableIndex → ProjectDbImpl → Prop
  | .done index, t => ∃ x memory, (x.1 = index ∧ v.memory = x.2.table :: memory) ∧
      Ready cfg permit { v with handed := [x], taken := 1 } n t ∧ startIndex t = s.start ∧
      t.ssTableCompactionFuture = none
  | _, t => DrainedStore cfg fmt permit s n t

theorem Stands.launchCompaction (stands : Stands cfg fmt permit s v n db) (idle : db.ssTableCompactionFuture = none) :
    ∃ next, ProjectDbImpl.launchCompaction cfg db = .ok () next ∧ Stands cfg fmt permit s v n next := by
  obtain ⟨⟨inv, sstRoom, txlRoom⟩, settled, memory, queue, start⟩ := stands
  obtain ⟨future, run, launched, _⟩ := inv.launchCompaction idle (by omega)
  exact ⟨_, run, ⟨launched, sstRoom, txlRoom⟩, settled, memory, queue, start⟩

/-- A table that is handed over leaves the MemTables of the store for its SSTables. -/
theorem MemoryOf.hand (cfg : Config) {x : Indexed} {rest : List Table} (memory : MemoryOf fmt s v)
    (front : v.memory = x.2.table :: rest) (some : rest ≠ []) :
    ∃ m, Store.Hands cfg s m ∧ m.ssTables = s.ssTables ++ [x.2] ∧ m.start = s.start ∧
      MemoryOf fmt m ⟨v.queue ++ [x], [], v.logs.tail, rest, v.retired, 0⟩ := by
  obtain ⟨ssTables, start, memTables⟩ := s
  obtain ⟨logs, tables⟩ := memory
  cases memTables with
  | nil =>
    rw [front] at tables
    contradiction
  | cons layer memTables =>
    rw [front, List.map_cons, List.cons.injEq] at tables
    refine ⟨_, .single (.hand tables.1 ?_), rfl, rfl, ?_, tables.2⟩
    · rintro rfl
      exact some tables.2
    · rw [List.map_tail, logs]
      rfl

variable (allowed : ∀ m, Store.Settles cfg permit s m → Allows cfg fmt permit always m)
include allowed

theorem DrainedStore.assertion : Prog.Assertion (Others cfg permit) always (DrainedStore cfg fmt permit s n) :=
  StandsAmong.idle_assertion fun m hands => allowed m hands.settles

theorem TakesFlush.assertion (memory : MemoryOf fmt s v) (queue : v.queue.map Prod.snd = s.ssTables)
    (polled : Polled SSTableIndex) :
    Prog.Assertion (Others cfg permit) always (TakesFlush cfg fmt permit s v n polled) := by
  cases polled with
  | absent => exact DrainedStore.assertion allowed
  | pending => exact DrainedStore.assertion allowed
  | done index =>
    refine ⟨?_, ?_⟩
    · rintro t u ⟨x, rest, known, ready, start, idle⟩ step
      have lasts : Prog.Assertion (Others cfg permit) Anywhere (Ready cfg permit { v with handed := [x], taken := 1 } n) :=
        Ready.assertion fun _ _ => trivial
      exact ⟨x, rest, known, lasts.stable ready step, step.startIndex.trans start, step.idle.mpr idle⟩
    · rintro t ⟨x, rest, known, ready, start, _⟩
      refine allowed s .refl _ t (ready.shows ?_ ⟨memory.logs, memory.memory⟩ queue start)
      change [x.2.table] = v.memory.take 1
      rw [known.2]
      rfl

theorem Stands.pass (stands : Stands cfg fmt permit s v n db) (idle : db.ssTableCompactionFuture = none) :
    ProjectDbImpl.pass.Safe (Others cfg permit) always (fun _ => False) (fun _ => DrainedStore cfg fmt permit s n) db := by
  obtain ⟨_, settled, memory, queue, _⟩ := id stands
  have before : Prog.Assertion (Others cfg permit) always fun t =>
      Stands cfg fmt permit s v n t ∧ t.ssTableCompactionFuture = none :=
    (Stands.assertion (allowed s .refl)).and fun _ _ idle step => step.idle.mpr idle
  refine Prog.Safe.bind (Prog.Safe.atomic (Q := TakesFlush cfg fmt permit s v n) before
    (TakesFlush.assertion allowed memory queue) ⟨stands, idle⟩ ?_) ?_
  · rintro t ⟨now, idle⟩
    rcases now.ready.inv.takeFlush settled.taken with
      ⟨_, run⟩ | ⟨_, _, _, _, run⟩ | ⟨job, rest, x, files, futures, run, table, inv⟩
    · exact ⟨_, _, run, ⟨s, v, .refl, now⟩, idle⟩
    · exact ⟨_, _, run, ⟨s, v, .refl, now⟩, idle⟩
    · obtain ⟨later, front⟩ := now.ready.inv.flushing.front futures
      rw [settled.handed, List.nil_append] at inv
      exact ⟨_, _, run, x, later, ⟨rfl, by rw [front, table]⟩, ⟨inv, now.ready.sstRoom, now.ready.txlRoom⟩, now.start, idle⟩
  · intro polled t after
    cases polled with
    | absent => exact Prog.Safe.ret (DrainedStore.assertion allowed) after
    | pending => exact Prog.Safe.ret (DrainedStore.assertion allowed) after
    | done index =>
      refine Prog.Safe.bind (Prog.Safe.atomic (Q := fun _ => DrainedStore cfg fmt permit s n)
        (TakesFlush.assertion allowed memory queue (.done index)) (fun _ => DrainedStore.assertion allowed) after ?_)
        fun _ u done => Prog.Safe.ret (DrainedStore.assertion allowed) done
      rintro u ⟨x, rest, ⟨rfl, front⟩, now, start, idle⟩
      obtain ⟨files, run, inv⟩ := now.inv.handOver rfl rfl idle
      obtain ⟨e, f, more, twice⟩ := now.inv.flushing.second rfl
      have contents : u.memTableQueue.map (fun e => u.tables e.1.table) = v.memory := now.inv.flushing.memory
      have some : rest ≠ [] := by
        rintro rfl
        have length := congrArg List.length contents
        rw [front, twice] at length
        simp at length
      obtain ⟨m, hands, tables, same, shown⟩ := memory.hand cfg front some
      simp only [front, List.tail_cons] at inv
      refine ⟨(), _, run, ⟨m, _, hands, ⟨inv, now.sstRoom, now.txlRoom⟩, ⟨rfl, rfl⟩, shown, ?_, ?_⟩, idle⟩
      · rw [tables, List.map_append, queue, List.map_singleton]
      · exact start.trans same.symm

theorem Stands.drain (futures : Nat) (stands : Stands cfg fmt permit s v n db) (idle : db.ssTableCompactionFuture = none) :
    (ProjectDbImpl.drain futures).Safe (Others cfg permit) always (fun _ => False)
      (fun _ => DrainedStore cfg fmt permit s n) db := by
  induction futures generalizing s v db with
  | zero =>
    exact Prog.Safe.ret (Q := fun _ => DrainedStore cfg fmt permit s n) (DrainedStore.assertion allowed)
      ⟨⟨s, v, .refl, stands⟩, idle⟩
  | succ futures ih =>
    refine (stands.pass allowed idle).bind fun handedOver t after => ?_
    obtain ⟨⟨m, w, hands, now⟩, idle⟩ := after
    cases handedOver with
    | false =>
      exact Prog.Safe.ret (Q := fun _ => DrainedStore cfg fmt permit s n) (DrainedStore.assertion allowed)
        ⟨⟨m, w, hands, now⟩, idle⟩
    | true =>
      refine (ih (fun x more => allowed x (hands.settles.trans more)) now idle).mono fun _ u done => ?_
      exact ⟨done.1.imp fun _ more => hands.trans more, done.2⟩

/-- With no compaction under way, the check of the futures hands MemTables over
and does nothing else to the store. -/
theorem Stands.checkFlushToDiskFutures (stands : Stands cfg fmt permit s v n db) (idle : db.ssTableCompactionFuture = none) :
    (ProjectDbImpl.checkFlushToDiskFutures cfg).Safe (Others cfg permit) always (fun _ => False)
      (fun _ => StandsAmong cfg fmt permit (Store.Hands cfg s) n) db := by
  have before : Prog.Assertion (Others cfg permit) always fun t =>
      Stands cfg fmt permit s v n t ∧ t.ssTableCompactionFuture = none :=
    (Stands.assertion (allowed s .refl)).and fun _ _ idle step => step.idle.mpr idle
  have handed (m : Store) (hands : Store.Hands cfg s m) : Allows cfg fmt permit always m := allowed m hands.settles
  refine Prog.Safe.bind (Prog.Safe.readAs (Q := fun _ t => Stands cfg fmt permit s v n t ∧ t.ssTableCompactionFuture = none)
    before (fun _ => before) ⟨stands, idle⟩ fun _ now => now) fun futures t now => ?_
  refine (now.1.drain allowed futures now.2).bind fun _ u drained => ?_
  refine Prog.Safe.atomic (DrainedStore.assertion allowed) (fun _ => StandsAmong.assertion handed) drained ?_
  rintro x ⟨⟨m, w, hands, now⟩, idle⟩
  obtain ⟨next, run, launched⟩ := now.launchCompaction idle
  exact ⟨(), next, run, m, w, hands, launched⟩

/-- Checking the futures settles the store, and shows none but the stores on the way. -/
theorem Stands.checkFutures (stands : Stands cfg fmt permit s v n db) :
    (ProjectDbImpl.checkFutures cfg).Safe (Others cfg permit) always (fun _ => False)
      (fun _ => StandsAmong cfg fmt permit (Store.Settles cfg permit s) n) db := by
  refine Prog.Safe.bind (stands.collect allowed) fun running t collected => ?_
  obtain ⟨⟨m, w, collected, now⟩, idle⟩ := collected
  cases running with
  | true =>
    exact Prog.Safe.ret (Q := fun _ => StandsAmong cfg fmt permit (Store.Settles cfg permit s) n)
      (StandsAmong.assertion allowed) ⟨m, w, collected.settles, now⟩
  | false =>
    refine (now.checkFlushToDiskFutures (fun x more => allowed x (collected.settles.trans more)) (idle rfl)).mono
      fun _ u later => ?_
    exact later.imp fun _ hands => collected.settles.trans hands.settles

end Drain
end ProjectDbImpl
end ProjectDb
