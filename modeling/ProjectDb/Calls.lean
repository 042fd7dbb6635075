import ProjectDb.CompactionCheck
import ProjectDb.Writes
import ProjectDb.Lookups

namespace ProjectDb

@[simp] theorem lookup_append (older newer : List Table) (key : Key) :
    lookup (older ++ newer) key = (lookup newer key).or (lookup older key) := newest_append _ _ _ _

theorem lookup_singleton (t : Table) (key : Key) : lookup [t] key = t.find? key := by
  simp [lookup]

theorem SameElements.tablesOf {xs ys : List Indexed} (same : SameElements xs ys) :
    ProjectDb.tablesOf xs = ProjectDb.tablesOf ys := by
  rw [tablesOf_eq, tablesOf_eq, same.tables]

/-- A view between two calls, or between two passes of the loop: no table is on
its way from the MemTables to the SSTables. -/
structure View.Settled (v : View) : Prop where
  handed : v.handed = []
  taken : v.taken = 0

theorem View.Settled.lined {v : View} (settled : v.Settled) : tablesOf v.handed = v.memory.take v.taken := by
  rw [settled.handed, settled.taken]
  rfl

namespace ProjectDbImpl

/-- What lasts through all steps of a call: retired tables are not written, the
futures are those of the MemTables, and without compactions the files can be
loaded again. -/
structure Lasting (cfg : Config) (permit : List SSTable → Nat → Prop) (retired : List (Nat × Table))
    (db : ProjectDbImpl) : Prop where
  retired : ∀ r ∈ retired, db.tables r.1 = r.2
  flushing : ∃ v, Flushing v db
  loadable : cfg.numSSTableToCompact.toNat = 0 →
    ∃ v, Inv cfg permit v db ∧ tablesOf v.handed = v.memory.take v.taken

variable {cfg : Config} {fmt : LogFormat} {permit : List SSTable → Nat → Prop} {v w : View} {n : Nat}
  {db next : ProjectDbImpl}

theorem Ready.lasting (ready : Ready cfg permit v n db) (lined : tablesOf v.handed = v.memory.take v.taken) :
    Lasting cfg permit v.retired db :=
  ⟨fun r member => (ready.inv.flushing.retired r member).2.1, ⟨v, ready.inv.flushing⟩, fun _ => ⟨v, ready.inv, lined⟩⟩

theorem Ready.mono {m : Nat} (ready : Ready cfg permit v n db) (less : m ≤ n) : Ready cfg permit v m db := by
  obtain ⟨inv, sstRoom, txlRoom⟩ := ready
  exact ⟨inv, by omega, by omega⟩

theorem Ready.settled (settled : v.Settled) (retired : List (Nat × Table)) (same : v.retired = retired) :
    Prog.Assertion (Others cfg permit) (Lasting cfg permit retired) (Ready cfg permit v n) :=
  Ready.assertion fun _ ready => same ▸ ready.lasting settled.lined

section Drain

/-- The oldest flush job is that of the oldest MemTable. -/
theorem Flushing.front {job : FlushJob} {rest : List FlushJob} (flushing : Flushing v db)
    (queue : db.flushToDiskFutures = job :: rest) :
    ∃ memory, v.memory = db.tables job.table :: memory := by
  have aligned := flushing.aligned
  rw [queue] at aligned
  cases memTables : db.memTableQueue with
  | nil =>
    rw [memTables] at aligned
    contradiction
  | cons e later =>
    cases later with
    | nil =>
      rw [memTables] at aligned
      contradiction
    | cons f later =>
      rw [memTables, List.dropLast_cons_of_ne_nil (List.cons_ne_nil _ _), List.map_cons, List.map_cons] at aligned
      refine ⟨(f :: later).map fun g => db.tables g.1.table, ?_⟩
      rw [← flushing.memory, memTables, List.map_cons, (List.cons.inj aligned).1]

/-- What one pass of the loop comes to: nothing is ready, or the oldest
MemTable has become the newest SSTable. -/
inductive Passed (cfg : Config) (permit : List SSTable → Nat → Prop) (v : View) (n : Nat) (db : ProjectDbImpl) :
    Bool → ProjectDbImpl → Prop
  | none {t : ProjectDbImpl} : Ready cfg permit v n t → t.ssTableCompactionFuture = none → Passed cfg permit v n db false t
  | handed {t : ProjectDbImpl} {x : Indexed} {memory : List Table} : v.memory = x.2.table :: memory →
      Ready cfg permit ⟨v.queue ++ [x], [], v.logs.tail, memory, v.retired, 0⟩ n t →
      t.ssTableCompactionFuture = none → t.memTableQueue = db.memTableQueue.tail → Passed cfg permit v n db true t

theorem Passed.assertion (settled : v.Settled) (handedOver : Bool) :
    Prog.Assertion (Others cfg permit) (Lasting cfg permit v.retired) (Passed cfg permit v n db handedOver) where
  stable s t passed step := by
    cases passed with
    | none ready idle => exact .none ((Ready.settled settled _ rfl).stable ready step) (step.idle.mpr idle)
    | handed memory ready idle queue =>
      refine .handed memory ((Ready.settled ⟨rfl, rfl⟩ _ rfl).stable ready step) (step.idle.mpr idle) ?_
      obtain ⟨kind, step, _⟩ := step
      rw [step.memory.1, queue]
  within s passed := by
    cases passed with
    | none ready idle => exact ready.lasting settled.lined
    | handed memory ready idle queue => exact ready.lasting rfl

/-- Between the poll and the hand-over of a flushed table. -/
def BetweenPass (cfg : Config) (permit : List SSTable → Nat → Prop) (v : View) (n : Nat) (db : ProjectDbImpl) :
    Polled SSTableIndex → ProjectDbImpl → Prop
  | .absent, t => Passed cfg permit v n db false t
  | .pending, t => Passed cfg permit v n db false t
  | .done index, t => ∃ x memory, (x.1 = index ∧ v.memory = x.2.table :: memory) ∧
      Ready cfg permit { v with handed := [x], taken := 1 } n t ∧
      t.ssTableCompactionFuture = none ∧ t.memTableQueue = db.memTableQueue

theorem BetweenPass.assertion (settled : v.Settled) (polled : Polled SSTableIndex) :
    Prog.Assertion (Others cfg permit) (Lasting cfg permit v.retired) (BetweenPass cfg permit v n db polled) := by
  cases polled with
  | absent => exact Passed.assertion settled false
  | pending => exact Passed.assertion settled false
  | done index =>
    have lasting (x : Indexed) (memory : List Table) (known : v.memory = x.2.table :: memory) (t : ProjectDbImpl)
        (ready : Ready cfg permit { v with handed := [x], taken := 1 } n t) : Lasting cfg permit v.retired t := by
      refine ready.lasting ?_
      rw [known]
      rfl
    refine ⟨?_, ?_⟩
    · rintro s t ⟨x, memory, known, ready, idle, queue⟩ step
      refine ⟨x, memory, known, (Ready.assertion (lasting x memory known.2)).stable ready step, step.idle.mpr idle, ?_⟩
      obtain ⟨kind, step, _⟩ := step
      rw [step.memory.1, queue]
    · rintro s ⟨x, memory, known, ready, _⟩
      exact lasting x memory known.2 s ready

/-- One pass of the loop of `checkFlushToDiskFutures`. -/
theorem Ready.pass (ready : Ready cfg permit v n db) (settled : v.Settled) (idle : db.ssTableCompactionFuture = none) :
    ProjectDbImpl.pass.Safe (Others cfg permit) (Lasting cfg permit v.retired) (fun _ => False)
      (Passed cfg permit v n db) db := by
  have before : Prog.Assertion (Others cfg permit) (Lasting cfg permit v.retired) fun t =>
      Ready cfg permit v n t ∧ t.ssTableCompactionFuture = none ∧ t.memTableQueue = db.memTableQueue := by
    refine (Ready.settled settled _ rfl).and fun s t same step => ⟨step.idle.mpr same.1, ?_⟩
    obtain ⟨kind, step, _⟩ := step
    rw [step.memory.1, same.2]
  refine Prog.Safe.bind (Prog.Safe.atomic (Q := BetweenPass cfg permit v n db) before (BetweenPass.assertion settled)
    ⟨ready, idle, rfl⟩ ?_) ?_
  · rintro t ⟨now, idle, queue⟩
    rcases now.inv.takeFlush settled.taken with ⟨_, run⟩ | ⟨_, _, _, _, run⟩ | ⟨job, rest, x, files, futures, run, table, inv⟩
    · exact ⟨_, _, run, .none now idle⟩
    · exact ⟨_, _, run, .none now idle⟩
    · obtain ⟨memory, front⟩ := now.inv.flushing.front futures
      rw [settled.handed, List.nil_append] at inv
      exact ⟨_, _, run, x, memory, ⟨rfl, by rw [front, table]⟩, ⟨inv, now.sstRoom, now.txlRoom⟩, idle, queue⟩
  · intro polled t after
    cases polled with
    | absent => exact Prog.Safe.ret (Passed.assertion settled false) after
    | pending => exact Prog.Safe.ret (Passed.assertion settled false) after
    | done index =>
      refine Prog.Safe.bind (Prog.Safe.atomic (Q := fun _ => Passed cfg permit v n db true)
        (BetweenPass.assertion settled (.done index)) (fun _ => Passed.assertion settled true) after ?_) ?_
      · rintro u ⟨x, memory, ⟨rfl, front⟩, now, idle, queue⟩
        obtain ⟨files, run, inv⟩ := now.inv.handOver rfl rfl idle
        refine ⟨(), _, run, .handed front ⟨?_, now.sstRoom, now.txlRoom⟩ idle ?_⟩
        · simp only [front, List.tail_cons] at inv
          exact inv
        · simp only [popped, inserted, queue]
      · intro _ u passed
        exact Prog.Safe.ret (Passed.assertion settled true) passed

/-- What the loop comes to: some of the oldest MemTables have become the newest
SSTables, in their order. -/
structure Drained (v w : View) : Prop where
  settled : w.Settled
  retired : w.retired = v.retired
  moved : ∃ xs, w.queue = v.queue ++ xs ∧ tablesOf xs ++ w.memory = v.memory

theorem Drained.layers (drained : Drained v w) : w.layers = v.layers := by
  obtain ⟨xs, queue, memory⟩ := drained.moved
  rw [View.layers, View.layers, queue, tablesOf_append, List.append_assoc, memory]

theorem Drained.refl (settled : v.Settled) : Drained v v := ⟨settled, rfl, [], by simp, rfl⟩

/-- The states in which the loop may end. -/
def DrainedTo (cfg : Config) (permit : List SSTable → Nat → Prop) (v : View) (n : Nat) (t : ProjectDbImpl) : Prop :=
  ∃ w, Drained v w ∧ Ready cfg permit w n t ∧ t.ssTableCompactionFuture = none

theorem DrainedTo.assertion :
    Prog.Assertion (Others cfg permit) (Lasting cfg permit v.retired) (DrainedTo cfg permit v n) where
  stable s t holds step := by
    obtain ⟨w, drained, ready, idle⟩ := holds
    exact ⟨w, drained, (Ready.settled drained.settled _ rfl).stable ready step, step.idle.mpr idle⟩
  within s holds := by
    obtain ⟨w, drained, ready, _⟩ := holds
    exact drained.retired ▸ ready.lasting drained.settled.lined

theorem Ready.drain (futures : Nat) (ready : Ready cfg permit v n db) (settled : v.Settled)
    (idle : db.ssTableCompactionFuture = none) :
    (ProjectDbImpl.drain futures).Safe (Others cfg permit) (Lasting cfg permit v.retired) (fun _ => False)
      (fun _ => DrainedTo cfg permit v n) db := by
  induction futures generalizing v db with
  | zero =>
    exact Prog.Safe.ret (Q := fun _ => DrainedTo cfg permit v n) DrainedTo.assertion
      ⟨v, Drained.refl settled, ready, idle⟩
  | succ futures ih =>
    refine (ready.pass settled idle).bind fun handedOver t passed => ?_
    cases passed with
    | none ready idle =>
      exact Prog.Safe.ret (Q := fun _ => DrainedTo cfg permit v n) DrainedTo.assertion
        ⟨v, Drained.refl settled, ready, idle⟩
    | @handed _ x memory front ready idle queue =>
      refine (ih ready ⟨rfl, rfl⟩ idle).mono fun _ u holds => ?_
      obtain ⟨w, ⟨still, retired, xs, rest, moved⟩, done⟩ := holds
      refine ⟨w, ⟨still, retired, x :: xs, ?_, ?_⟩, done⟩
      · rw [rest, List.append_assoc, List.singleton_append]
      · rw [front]
        exact congrArg (x.2.table :: ·) moved

end Drain

section Check

/-- What a call does before it reads or writes: tables may have been handed
over, and a permitted compaction may have been installed. -/
structure Carried (cfg : Config) (permit : List SSTable → Nat → Prop) (v w : View) : Prop where
  settled : w.Settled
  retired : w.retired = v.retired
  layers : w.layers = v.layers ∨ ∃ start, cfg.numSSTableToCompact.toNat ≠ 0 ∧ permit (v.queue.map Prod.snd) start ∧
    w.layers = (compactionGroups cfg (v.queue.map Prod.snd) start (cfg.numSSTableToCompact.toNat + 1)).map
      (fun group => (mergeGroup group).table) ++ v.memory

/-- The states after the futures have been checked. -/
def CarriedTo (cfg : Config) (permit : List SSTable → Nat → Prop) (v : View) (n : Nat) (t : ProjectDbImpl) : Prop :=
  ∃ w, Carried cfg permit v w ∧ Ready cfg permit w n t

theorem CarriedTo.assertion :
    Prog.Assertion (Others cfg permit) (Lasting cfg permit v.retired) (CarriedTo cfg permit v n) where
  stable s t holds step := by
    obtain ⟨w, carried, ready⟩ := holds
    exact ⟨w, carried, (Ready.settled carried.settled _ rfl).stable ready step⟩
  within s holds := by
    obtain ⟨w, carried, ready⟩ := holds
    exact carried.retired ▸ ready.lasting carried.settled.lined

theorem Ready.checkFlushToDiskFutures (ready : Ready cfg permit v n db) (settled : v.Settled)
    (idle : db.ssTableCompactionFuture = none) :
    (ProjectDbImpl.checkFlushToDiskFutures cfg).Safe (Others cfg permit) (Lasting cfg permit v.retired)
      (fun _ => False) (fun _ t => ∃ w, Drained v w ∧ Ready cfg permit w n t) db := by
  have drainedTo : Prog.Assertion (Others cfg permit) (Lasting cfg permit v.retired) fun t =>
      ∃ w, Drained v w ∧ Ready cfg permit w n t := by
    refine ⟨?_, ?_⟩
    · rintro s t ⟨w, drained, ready⟩ step
      exact ⟨w, drained, (Ready.settled drained.settled _ rfl).stable ready step⟩
    · rintro s ⟨w, drained, ready⟩
      exact drained.retired ▸ ready.lasting drained.settled.lined
  have before : Prog.Assertion (Others cfg permit) (Lasting cfg permit v.retired) fun t =>
      Ready cfg permit v n t ∧ t.ssTableCompactionFuture = none ∧
        t.flushToDiskFutures.length = db.flushToDiskFutures.length := by
    refine (Ready.settled settled _ rfl).and fun s t same step => ⟨step.idle.mpr same.1, ?_⟩
    obtain ⟨kind, step, _⟩ := step
    rw [← same.2]
    cases step with
    | flush split => simp [split]
    | tick => rfl
    | clean => rfl
    | compaction => rfl
  refine Prog.Safe.bind (Prog.Safe.read before ⟨ready, idle, rfl⟩ fun t now => now.2.2) ?_
  rintro _ t ⟨rfl, now, idle, _⟩
  refine (now.drain _ settled idle).bind fun _ u holds => ?_
  refine Prog.Safe.atomic (P := DrainedTo cfg permit v n) (Q := fun _ t => ∃ w, Drained v w ∧ Ready cfg permit w n t)
    DrainedTo.assertion (fun _ => drainedTo) holds ?_
  rintro x ⟨w, drained, ready, idle⟩
  obtain ⟨future, run, inv, _⟩ := ready.inv.launchCompaction idle (lt_of_le_of_lt (Nat.le_add_right _ n) ready.sstRoom)
  exact ⟨(), _, run, w, drained, inv, ready.sstRoom, ready.txlRoom⟩

theorem Ready.checkFutures (ready : Ready cfg permit v n db) (settled : v.Settled) :
    (ProjectDbImpl.checkFutures cfg).Safe (Others cfg permit) (Lasting cfg permit v.retired) (fun _ => False)
      (fun _ => CarriedTo cfg permit v n) db := by
  refine Prog.Safe.bind (ready.checkSSTableCompactionFuture
    (fun positive t taken => ⟨fun r member => (taken.flushing.retired r member).2.1, ⟨v, taken.flushing⟩,
      fun off => absurd off positive⟩)
    fun queue t ready => ready.lasting settled.lined) fun running t checked => ?_
  cases checked with
  | running _ ready =>
    exact Prog.Safe.ret (Q := fun _ => CarriedTo cfg permit v n) CarriedTo.assertion
      ⟨v, ⟨settled, rfl, Or.inl rfl⟩, ready⟩
  | absent _ ready idle =>
    refine (ready.checkFlushToDiskFutures settled idle).mono fun _ u holds => ?_
    obtain ⟨w, drained, ready⟩ := holds
    exact ⟨w, ⟨drained.settled, drained.retired, Or.inl drained.layers⟩, ready⟩
  | @installed _ after start _ positive permitted tables ready idle =>
    have still : View.Settled { v with queue := after } := ⟨settled.handed, settled.taken⟩
    refine (ready.checkFlushToDiskFutures still idle).mono fun _ u holds => ?_
    obtain ⟨w, drained, ready⟩ := holds
    refine ⟨w, ⟨drained.settled, drained.retired, Or.inr ⟨start, positive, permitted, ?_⟩⟩, ready⟩
    rw [drained.layers, View.layers, tables]

end Check

section Get

/-- A call of `get` answers from the tables it finds after its check. -/
theorem Ready.get (ready : Ready cfg permit v n db) (settled : v.Settled) (key : StdString) :
    (ProjectDbImpl.get cfg key).Safe (Others cfg permit) (Lasting cfg permit v.retired) (fun _ => False)
      (fun answer t => ∃ w, (Carried cfg permit v w ∧ answer = w.answer key) ∧ Ready cfg permit w n t) db := by
  refine (ready.checkFutures settled).bind fun _ t holds => ?_
  refine Prog.Safe.atomic (P := CarriedTo cfg permit v n)
    (Q := fun answer t => ∃ w, (Carried cfg permit v w ∧ answer = w.answer key) ∧ Ready cfg permit w n t)
    CarriedTo.assertion ?_ holds ?_
  · intro answer
    refine ⟨?_, ?_⟩
    · rintro s t ⟨w, known, ready⟩ step
      exact ⟨w, known, (Ready.settled known.1.settled _ rfl).stable ready step⟩
    · rintro s ⟨w, known, ready⟩
      exact known.1.retired ▸ ready.lasting known.1.settled.lined
  · rintro u ⟨w, carried, ready⟩
    obtain ⟨ys, run, same, inv⟩ := ready.inv.find key
    have layers : View.layers { w with queue := ys } = w.layers := by rw [View.layers, View.layers, same.tablesOf]
    refine ⟨_, _, run, { w with queue := ys }, ⟨⟨⟨carried.settled.handed, carried.settled.taken⟩, carried.retired, ?_⟩, ?_⟩,
      inv, ready.sstRoom, ready.txlRoom⟩
    · rw [layers]
      exact carried.layers
    · rw [View.answer, View.answer, layers]

end Get

section Write

/-- An empty table on top changes no lookup. -/
theorem lookup_empty_on_top (tables : List Table) (key : Key) : lookup (tables ++ [.empty]) key = lookup tables key := by
  rw [lookup_append, lookup_singleton, SortedMap.find?_empty, Option.none_or]

theorem lookup_apply_on_top (tables : List Table) (table : Table) (op : Operation) (key : Key) :
    lookup (tables ++ [op.apply table]) key =
      if key = op.key then some op.written else lookup (tables ++ [table]) key := by
  rw [lookup_append, lookup_append, lookup_singleton, lookup_singleton, Operation.find?_apply]
  split_ifs <;> rfl

/-- What a call of `set` or `remove` leaves under each key. -/
structure Wrote (cfg : Config) (permit : List SSTable → Nat → Prop) (v w : View) (op : Operation) : Prop where
  settled : w.Settled
  retired : w.retired = v.retired
  lookups : ∃ mid, Carried cfg permit v mid ∧
    ∀ key, lookup w.layers key = if key = op.key then some op.written else lookup mid.layers key

/-- There is a MemTable to write to. -/
structure Prepared (cfg : Config) (permit : List SSTable → Nat → Prop) (v w : View) (t : ProjectDbImpl) : Prop where
  settled : w.Settled
  retired : w.retired = v.retired
  lookups : ∃ mid, Carried cfg permit v mid ∧ ∀ key, lookup w.layers key = lookup mid.layers key
  some : t.memTableQueue ≠ []

theorem Others.memTableQueue (step : Others cfg permit db next) : next.memTableQueue = db.memTableQueue := by
  obtain ⟨kind, step, _⟩ := step
  exact step.memory.1

variable {op : Operation}

theorem Prepared.assertion : Prog.Assertion (Others cfg permit) (Lasting cfg permit v.retired)
    fun t => ∃ w, Prepared cfg permit v w t ∧ Ready cfg permit w n t := by
  refine ⟨?_, ?_⟩
  · rintro s t ⟨w, ⟨settled, retired, lookups, some⟩, ready⟩ step
    exact ⟨w, ⟨settled, retired, lookups, step.memTableQueue ▸ some⟩, (Ready.settled settled _ rfl).stable ready step⟩
  · rintro s ⟨w, prepared, ready⟩
    exact prepared.retired ▸ ready.lasting prepared.settled.lined

theorem Wrote.assertion : Prog.Assertion (Others cfg permit) (Lasting cfg permit v.retired)
    fun t => ∃ w, Wrote cfg permit v w op ∧ Ready cfg permit w n t := by
  refine ⟨?_, ?_⟩
  · rintro s t ⟨w, wrote, ready⟩ step
    exact ⟨w, wrote, (Ready.settled wrote.settled _ rfl).stable ready step⟩
  · rintro s ⟨w, wrote, ready⟩
    exact wrote.retired ▸ ready.lasting wrote.settled.lined

theorem Ready.prepare (holds : CarriedTo cfg permit v (n + 1) db) :
    ∃ next, MemTableQueue.prepare db = .ok () next ∧ ∃ w, Prepared cfg permit v w next ∧ Ready cfg permit w n next := by
  obtain ⟨mid, carried, ready⟩ := holds
  obtain ⟨inv, sstRoom, txlRoom⟩ := ready
  rcases inv.prepare (by omega) with ⟨some, run⟩ | ⟨memory, run, emplaced⟩
  · exact ⟨db, run, mid, ⟨carried.settled, carried.retired, ⟨mid, carried, fun _ => rfl⟩, some⟩, inv, by omega, by omega⟩
  · refine ⟨_, run, { mid with logs := mid.logs ++ [(db.transactionLogFileCounterBase, [])], memory := [.empty] },
      ⟨⟨carried.settled.handed, carried.settled.taken⟩, carried.retired, ⟨mid, carried, fun key => ?_⟩, ?_⟩,
      emplaced, ?_, ?_⟩
    · rw [View.layers, View.layers, memory, lookup_empty_on_top, List.append_nil]
    · simp [ProjectDbImpl.emplaced]
    · change db.ssTableFileCounterBase + n < 2 ^ 32
      omega
    · change db.transactionLogFileCounterBase + 1 + n < 2 ^ 32
      omega

theorem Ready.append (fmt : LogFormat) (op : Operation)
    (holds : ∃ w, Prepared cfg permit v w db ∧ Ready cfg permit w n db) :
    ∃ next, MemTableQueue.append fmt op db = .ok () next ∧
      ∃ w, (Wrote cfg permit v w op ∧ next.memTableQueue ≠ []) ∧ Ready cfg permit w n next := by
  obtain ⟨w, ⟨settled, retired, ⟨mid, carried, lookups⟩, some⟩, ready⟩ := holds
  obtain ⟨e, contents, memory, table, logs, split, last, run, inv⟩ := ready.inv.append fmt some op
  refine ⟨_, run, { w with logs := logs, memory := memory ++ [op.apply table] },
    ⟨⟨⟨settled.handed, settled.taken⟩, retired, mid, carried, fun key => ?_⟩, some⟩, inv, ready.sstRoom, ready.txlRoom⟩
  rw [← lookups, View.layers, View.layers, split, ← List.append_assoc, ← List.append_assoc, lookup_apply_on_top]

theorem Ready.launchFlush (holds : ∃ w, (Wrote cfg permit v w op ∧ db.memTableQueue ≠ []) ∧ Ready cfg permit w (n + 1) db) :
    ∃ next, ProjectDbImpl.launchFlush cfg db = .ok () next ∧ ∃ w, Wrote cfg permit v w op ∧ Ready cfg permit w n next := by
  obtain ⟨w, ⟨wrote, some⟩, ready⟩ := holds
  have sstRoom := ready.sstRoom
  have txlRoom := ready.txlRoom
  rcases ready.inv.launchFlush some (by omega) (by omega) with run | ⟨e, run, launched⟩
  · exact ⟨db, run, w, wrote, ready.mono (Nat.le_succ n)⟩
  · obtain ⟨mid, carried, lookups⟩ := wrote.lookups
    refine ⟨_, run, { w with
      logs := w.logs ++ [(db.transactionLogFileCounterBase, [])]
      memory := w.memory ++ [.empty] }, ⟨⟨wrote.settled.handed, wrote.settled.taken⟩, wrote.retired, mid, carried,
      fun key => ?_⟩, launched, ?_, ?_⟩
    · rw [← lookups, View.layers, View.layers, ← List.append_assoc, lookup_empty_on_top]
    · change db.ssTableFileCounterBase + 1 + n < 2 ^ 32
      omega
    · change db.transactionLogFileCounterBase + 1 + n < 2 ^ 32
      omega

/-- A call of `set` or `remove` writes its key and no other. -/
theorem Ready.write (ready : Ready cfg permit v (n + 2) db) (settled : v.Settled) (fmt : LogFormat) (op : Operation) :
    (ProjectDbImpl.write cfg fmt op).Safe (Others cfg permit) (Lasting cfg permit v.retired) (fun _ => False)
      (fun _ t => ∃ w, Wrote cfg permit v w op ∧ Ready cfg permit w n t) db := by
  have appended : Prog.Assertion (Others cfg permit) (Lasting cfg permit v.retired)
      fun t => ∃ w, (Wrote cfg permit v w op ∧ t.memTableQueue ≠ []) ∧ Ready cfg permit w (n + 1) t := by
    refine ⟨?_, ?_⟩
    · rintro s t ⟨w, ⟨wrote, some⟩, ready⟩ step
      exact ⟨w, ⟨wrote, step.memTableQueue ▸ some⟩, (Ready.settled wrote.settled _ rfl).stable ready step⟩
    · rintro s ⟨w, ⟨wrote, _⟩, ready⟩
      exact wrote.retired ▸ ready.lasting wrote.settled.lined
  refine (ready.checkFutures settled).bind fun _ t holds => ?_
  have logged : (MemTableQueue.write fmt op).Safe (Others cfg permit) (Lasting cfg permit v.retired) (fun _ => False)
      (fun _ t => ∃ w, (Wrote cfg permit v w op ∧ t.memTableQueue ≠ []) ∧ Ready cfg permit w (n + 1) t) t := by
    refine Prog.Safe.bind (Prog.Safe.atomic (P := CarriedTo cfg permit v (n + 2))
      (Q := fun _ t => ∃ w, Prepared cfg permit v w t ∧ Ready cfg permit w (n + 1) t) CarriedTo.assertion
      (fun _ => Prepared.assertion) holds fun u now => ?_) fun _ u prepared => ?_
    · obtain ⟨next, run, prepared⟩ := Ready.prepare now
      exact ⟨(), next, run, prepared⟩
    · refine Prog.Safe.atomic (P := fun t => ∃ w, Prepared cfg permit v w t ∧ Ready cfg permit w (n + 1) t)
        Prepared.assertion (fun _ => appended) prepared fun x now => ?_
      obtain ⟨next, run, wrote⟩ := Ready.append fmt op now
      exact ⟨(), next, run, wrote⟩
  refine logged.bind fun _ u wrote => ?_
  refine Prog.Safe.atomic (Q := fun _ t => ∃ w, Wrote cfg permit v w op ∧ Ready cfg permit w n t)
    appended (fun _ => Wrote.assertion) wrote fun x now => ?_
  obtain ⟨next, run, done⟩ := Ready.launchFlush now
  exact ⟨(), next, run, done⟩

end Write
end ProjectDbImpl
end ProjectDb
