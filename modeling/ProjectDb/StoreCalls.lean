import ProjectDb.StoreRefinement
import ProjectDb.Foundation.Commit

namespace ProjectDb

namespace ProjectDbImpl

variable {cfg : Config} {fmt : LogFormat} {permit : List SSTable → Nat → Prop} {s m : Store} {v w : View} {n : Nat}
  {db t : ProjectDbImpl}

/-- The logs of a view are the files of the logs of the MemTables. -/
theorem Logging.logs_eq (logging : Logging v t) :
    v.logs = t.memTableQueue.map fun e =>
      (e.2.transactionLogFileName.counter, (t.files.read e.2.transactionLogFileName).getD []) := by
  have names : (t.memTableQueue.map (·.2.transactionLogFileName)).map
      (fun name => (name.counter, (t.files.read name).getD [])) = v.logs := by
    rw [logging.names, List.map_map]
    refine (List.map_congr_left fun l member => ?_).trans (List.map_id _)
    have found := (logging.files _ (extension_genTransactionLogFileName l.1) l.2).mpr ⟨l, member, rfl, rfl⟩
    simp only [Function.comp_apply, found, Option.getD_some]
    rfl
  rw [← names, List.map_map]
  rfl

/-- The logs of a view are determined by the state. -/
theorem Logging.unique (logging : Logging v t) (other : Logging w t) : v.logs = w.logs :=
  logging.logs_eq.trans other.logs_eq.symm

section Write

/-- An operation is appended to the last log, and applied to the last MemTable. -/
theorem Inv.append_log (inv : Inv cfg permit v db) (fmt : LogFormat) (op : Operation) {logs : List (Nat × List Byte)}
    {c : Nat} {bytes : List Byte} {tables : List Table} {table : Table} (logged : v.logs = logs ++ [(c, bytes)])
    (memory : v.memory = tables ++ [table]) :
    ∃ next, MemTableQueue.append fmt op db = .ok () next ∧ startIndex next = startIndex db ∧
      next.ssTableFileCounterBase = db.ssTableFileCounterBase ∧
      next.transactionLogFileCounterBase = db.transactionLogFileCounterBase ∧
      Inv cfg permit { v with logs := logs ++ [(c, bytes ++ fmt.record op)], memory := tables ++ [op.apply table] } next := by
  have names := inv.logging.names
  have some : db.memTableQueue ≠ [] := by
    intro none
    rw [none, logged] at names
    simp at names
  obtain ⟨e, contents, tables', table', logs', split, last, run, now⟩ := inv.append fmt some op
  obtain ⟨rfl, rfl⟩ := List.append_inj' (memory.symm.trans split) rfl |>.imp id List.singleton_inj.mp
  obtain ⟨front, queue⟩ := List.getLast?_eq_some_iff.mp last
  rw [queue, logged, List.map_append, List.map_append] at names
  have name : e.2.transactionLogFileName = genTransactionLogFileName c := List.singleton_inj.mp (List.append_inj' names rfl).2
  have found : db.files.read e.2.transactionLogFileName = Option.some bytes := by
    rw [name]
    exact (inv.logging.files _ rfl bytes).mpr ⟨_, logged ▸ List.mem_append_right _ (List.mem_singleton_self _), rfl, rfl⟩
  have exact_ : MemTableQueue.append fmt op db = .ok () (db.appended op e (bytes ++ fmt.record op)) := by
    simp only [MemTableQueue.append, DbM.current, DbM.file, DbM.change, appendFile, bind, EStateM.bind, last, found]
    rfl
  rw [exact_] at run
  cases EStateM.Result.ok.inj run |>.2
  have same := now.logging.unique (inv.logging.append (w := { v with logs := logs ++ [(c, bytes ++ fmt.record op)] })
    op logged name rfl)
  cases same
  exact ⟨_, exact_, rfl, rfl, rfl, now⟩

/-- A MemTable that has become large is flushed, and no other. -/
theorem launchFlush_small {e : MemTable × TransactionLogWritter} (last : db.memTableQueue.getLast? = some e)
    (small : (db.tables e.1.table).needsFlushToDisk cfg.memTableApproximateMaxSizeInBytes = false) :
    ProjectDbImpl.launchFlush cfg db = .ok () db := by
  simp only [ProjectDbImpl.launchFlush, MemTableQueue.tryLaunchFlushToDisk, DbM.current, bind, EStateM.bind, last, small]
  rfl

theorem Logging.launchFlush_large (logging : Logging v db) (room : db.transactionLogFileCounterBase + 1 < 2 ^ 32)
    {e : MemTable × TransactionLogWritter} (last : db.memTableQueue.getLast? = some e)
    (large : (db.tables e.1.table).needsFlushToDisk cfg.memTableApproximateMaxSizeInBytes = true) :
    ProjectDbImpl.launchFlush cfg db ≠ .ok () db := by
  intro same
  simp only [ProjectDbImpl.launchFlush, MemTableQueue.tryLaunchFlushToDisk, MemTableQueue.launchFlushToDisk,
    DbM.current, bind, EStateM.bind, last, if_pos large, logging.emplaceNew room] at same
  have queues := congrArg (fun d => d.memTableQueue.length) (EStateM.Result.ok.inj same).2
  simp [emplaced] at queues

theorem Stands.memTables_ne (stands : Stands cfg fmt permit s v n db) : db.memTableQueue ≠ [] ↔ s.memTables ≠ [] := by
  have contents := stands.ready.inv.flushing.memory
  rw [stands.memory.memory] at contents
  rw [ne_eq, ne_eq, not_iff_not, ← List.map_eq_nil_iff, contents, List.map_eq_nil_iff]

theorem Stands.prepare (stands : Stands cfg fmt permit s v (n + 1) db) :
    ∃ next w, MemTableQueue.prepare db = .ok () next ∧ Stands cfg fmt permit s.prepare w n next := by
  obtain ⟨⟨inv, sstRoom, txlRoom⟩, settled, memory, queue, start⟩ := id stands
  rcases inv.prepare (by omega) with ⟨some, run⟩ | ⟨none, run, emplaced⟩
  · have same : s.prepare = s := if_neg (stands.memTables_ne.mp some)
    exact ⟨db, v, run, ⟨inv, by omega, by omega⟩, settled, same.symm ▸ memory, same.symm ▸ queue, same.symm ▸ start⟩
  · have empty : s.memTables = [] := by
      have tables := memory.memory
      rw [none] at tables
      exact List.map_eq_nil_iff.mp tables.symm
    have first : s.prepare = { s with memTables := [.new] } := if_pos empty
    have logs := memory.logs
    rw [empty, List.map_nil] at logs
    rw [first]
    refine ⟨_, _, run, ⟨emplaced, ?_, ?_⟩, ⟨settled.handed, settled.taken⟩, ⟨?_, rfl⟩, queue, start⟩
    · change db.ssTableFileCounterBase + n < 2 ^ 32
      omega
    · change db.transactionLogFileCounterBase + 1 + n < 2 ^ 32
      omega
    · rw [List.map_append, logs]
      rfl

/-- A write goes to the newest MemTable of the store and to its log. -/
theorem Stands.append (stands : Stands cfg fmt permit s v n db) (some : s.memTables ≠ []) (op : Operation) :
    ∃ next w, MemTableQueue.append fmt op db = .ok () next ∧ Stands cfg fmt permit (s.append op) w n next := by
  obtain ⟨⟨inv, sstRoom, txlRoom⟩, settled, ⟨logs, memory⟩, queue, start⟩ := stands
  obtain ⟨ssTables, begins, memTables⟩ := s
  obtain ⟨earlier, l, rfl⟩ := (List.eq_nil_or_concat' _).resolve_left some
  rw [List.map_append, List.map_singleton] at logs memory
  obtain ⟨older, newest, split, olderLogs, newestLog⟩ := List.map_eq_append_iff.mp logs
  obtain ⟨⟨c, bytes⟩, rfl, rfl⟩ := List.map_eq_singleton_iff.mp newestLog
  obtain ⟨next, run, same, sst, txl, now⟩ := inv.append_log fmt op split memory
  rw [Store.append_concat]
  refine ⟨next, _, run, ⟨now, sst ▸ sstRoom, txl ▸ txlRoom⟩, ⟨settled.handed, settled.taken⟩, ⟨?_, ?_⟩, queue,
    same.trans start⟩
  · rw [List.map_append, olderLogs, List.map_append, List.map_singleton, List.map_singleton, Layer.contents_write]
  · rw [List.map_append, List.map_singleton, Layer.current_write]

theorem Stands.launchFlush (stands : Stands cfg fmt permit s v (n + 1) db) (some : s.memTables ≠ []) :
    ∃ next w, ProjectDbImpl.launchFlush cfg db = .ok () next ∧ Stands cfg fmt permit (s.roll cfg) w n next := by
  obtain ⟨⟨inv, sstRoom, txlRoom⟩, settled, memory, queue, start⟩ := id stands
  have nonempty := stands.memTables_ne.mpr some
  obtain ⟨front, e, queued⟩ := (List.eq_nil_or_concat' db.memTableQueue).resolve_left nonempty
  obtain ⟨earlier, l, layers⟩ := (List.eq_nil_or_concat' s.memTables).resolve_left some
  have last : db.memTableQueue.getLast? = Option.some e := by rw [queued, List.getLast?_concat]
  have table : db.tables e.1.table = l.current := by
    have contents := inv.flushing.memory.trans memory.memory
    rw [queued, layers, List.map_append, List.map_append] at contents
    exact List.singleton_inj.mp (List.append_inj' contents rfl).2
  have newest : s.memTables.getLast?.any (Layer.full cfg) = l.full cfg := by rw [layers, List.getLast?_concat]; rfl
  cases full : l.full cfg with
  | false =>
    have same : s.roll cfg = s := by rw [Store.roll, newest, full]; rfl
    refine ⟨db, v, launchFlush_small last (table ▸ full), ⟨inv, by omega, by omega⟩, settled, ?_, ?_, ?_⟩
    · exact same.symm ▸ memory
    · exact same.symm ▸ queue
    · exact same.symm ▸ start
  | true =>
    have rolled : s.roll cfg = { s with memTables := s.memTables ++ [.new] } := by rw [Store.roll, newest, full]; rfl
    rcases inv.launchFlush nonempty (by omega) (by omega) with same | ⟨e, run, launched⟩
    · exact absurd same (inv.logging.launchFlush_large (by omega) last (table ▸ full))
    · rw [rolled]
      refine ⟨_, _, run, ⟨launched, ?_, ?_⟩, ⟨settled.handed, settled.taken⟩, ⟨?_, ?_⟩, queue, start⟩
      · change db.ssTableFileCounterBase + 1 + n < 2 ^ 32
        omega
      · change db.transactionLogFileCounterBase + 1 + n < 2 ^ 32
        omega
      · rw [List.map_append, memory.logs, List.map_append]
        rfl
      · rw [memory.memory, List.map_append]
        rfl

end Write

section Call

theorem Stands.find (stands : Stands cfg fmt permit s v n db) (key : StdString) :
    ∃ next w, ProjectDbImpl.find cfg key db = .ok (s.answer key) next ∧ Stands cfg fmt permit s w n next := by
  obtain ⟨⟨inv, sstRoom, txlRoom⟩, settled, memory, queue, start⟩ := stands
  obtain ⟨ys, run, same, now⟩ := inv.find key
  have answer : v.answer key = s.answer key := by
    rw [View.answer, Store.answer, View.layers, Store.layers, tablesOf_eq, queue, memory.memory]
  rw [answer] at run
  exact ⟨_, _, run, ⟨now, sstRoom, txlRoom⟩, ⟨settled.handed, settled.taken⟩, ⟨memory.logs, memory.memory⟩,
    same.tables.symm.trans queue, start⟩

/-- What a call comes to when its check of the futures ends in one of some
stores: it answers from that store, and leaves it written to. -/
def Calls (cfg : Config) (fmt : LogFormat) (permit : List SSTable → Nat → Prop) (P : Store → Prop) (n : Nat) (call : Call)
    (answer : Option StdString) (t : ProjectDbImpl) : Prop :=
  ∃ m w, (P m ∧ answer = KeyMap.answer m.answer call) ∧ Stands cfg fmt permit (m.called cfg call) w n t

variable {always before after : ProjectDbImpl → Prop} {P : Store → Prop} {call : Call} {op : Operation}

theorem Stands.exists_assertion (allowed : Allows cfg fmt permit always s) :
    Prog.Assertion (Others cfg permit) always fun t => ∃ w, Stands cfg fmt permit s w n t where
  stable t u holds step := by
    obtain ⟨w, stands⟩ := holds
    exact ⟨w, (Stands.assertion allowed).stable stands step⟩
  within t holds := by
    obtain ⟨w, stands⟩ := holds
    exact allowed w t stands.shows

theorem Calls.assertion {answer : Option StdString} (passes : ∀ m, P m → Allows cfg fmt permit always (m.called cfg call)) :
    Prog.Assertion (Others cfg permit) always (Calls cfg fmt permit P n call answer) where
  stable t u holds step := by
    obtain ⟨m, w, known, stands⟩ := holds
    exact ⟨m, w, known, (Stands.assertion (passes m known.1)).stable stands step⟩
  within t holds := by
    obtain ⟨m, w, known, stands⟩ := holds
    exact passes m known.1 w t stands.shows

theorem Stands.mono {fewer : Nat} (le : fewer ≤ n) (stands : Stands cfg fmt permit s v n db) :
    Stands cfg fmt permit s v fewer db :=
  ⟨stands.ready.mono le, stands.settled, stands.memory, stands.queue, stands.start⟩

section Checked

variable (checked : (ProjectDbImpl.checkFutures cfg).Safe (Others cfg permit) before (fun _ => False)
    (fun _ => StandsAmong cfg fmt permit P (n + 2)) db)
  (early : ∀ m x, P m → Store.Before cfg permit call m x → Allows cfg fmt permit before x)
  (late : ∀ m x, P m → Store.After cfg permit call m x → Allows cfg fmt permit after x)
include checked early late

/-- A write shows the stores before it until it is appended, and those after it
from then on. -/
theorem write_checked (isWrite : call.operation = some op) :
    (ProjectDbImpl.write cfg fmt op).Commits (Others cfg permit) before after (fun _ => False) (fun _ _ => False)
      (fun _ t => ∃ m w, P m ∧ Stands cfg fmt permit (m.called cfg call) w n t) db := by
  refine Prog.Safe.bind_commits checked fun _ t later => ?_
  obtain ⟨m, w, holds, now⟩ := later
  have prepared : m.prepare.memTables ≠ [] := by
    obtain ⟨earlier, l, queue⟩ := m.prepare_memTables
    simp [queue]
  have appended : (m.prepare.append op).memTables ≠ [] := by
    obtain ⟨earlier, l, queue⟩ := m.prepare_memTables
    simp [Store.append, queue]
  have called : m.called cfg call = (m.prepare.append op).roll cfg := by rw [Store.called, isWrite]
  have unwritten := Stands.exists_assertion (n := n + 1) (early m _ holds (.prepared .refl isWrite))
  have written := Stands.exists_assertion (n := n + 1) (late m _ holds (.appended .refl isWrite))
  have rolled := Stands.exists_assertion (n := n) (late m _ holds (.rolled .refl isWrite))
  refine Prog.Commits.bind (Prog.Safe.bind_commits (Prog.Safe.atomic
    (Q := fun _ t => ∃ w, Stands cfg fmt permit m.prepare w (n + 1) t) (Stands.assertion (early m _ holds (.settled .refl)))
    (fun _ => unwritten) now fun u now => ?_) fun _ u shown => Prog.Commits.atomic
      (Q := fun _ t => ∃ w, Stands cfg fmt permit (m.prepare.append op) w (n + 1) t)
      unwritten (fun _ => written) shown fun x now => ?_) (fun _ _ (never : False) => never.elim) fun _ u shown => ?_
  · obtain ⟨next, w, run, later⟩ := now.prepare
    exact ⟨(), next, run, w, later⟩
  · obtain ⟨w, now⟩ := now
    obtain ⟨next, w, run, later⟩ := now.append prepared op
    exact ⟨(), next, run, w, later⟩
  · refine (Prog.Safe.atomic (Q := fun _ t => ∃ w, Stands cfg fmt permit ((m.prepare.append op).roll cfg) w n t)
      written (fun _ => rolled) shown fun x now => ?_).mono fun _ t done => ?_
    · obtain ⟨w, now⟩ := now
      obtain ⟨next, w, run, later⟩ := now.launchFlush appended
      exact ⟨(), next, run, w, later⟩
    · obtain ⟨w, done⟩ := done
      exact ⟨m, w, holds, called ▸ done⟩

theorem write_silent (isWrite : call.operation = some op) (silent : ∀ m : KeyMap, m.answer call = none) :
    (ProjectDbImpl.write cfg fmt op >>= fun _ => pure none).Commits (Others cfg permit) before after (fun _ => False)
      (Calls cfg fmt permit P n call) (Calls cfg fmt permit P n call) db := by
  refine (write_checked checked early late isWrite).bind (fun _ _ never => never.elim) fun _ t written => ?_
  obtain ⟨m, w, holds, now⟩ := written
  refine Prog.Safe.ret (Q := Calls cfg fmt permit P n call) (Calls.assertion fun m holds => ?_)
    ⟨m, w, ⟨holds, (silent _).symm⟩, now⟩
  rw [Store.called, isWrite]
  exact late m _ holds (.rolled .refl isWrite)

/-- What comes after the check of the futures refines the call on the store: no
store from before the write is shown once it has written. -/
theorem call_checked :
    (call.prog cfg fmt).Commits (Others cfg permit) before after (fun _ => False) (Calls cfg fmt permit P n call)
      (Calls cfg fmt permit P n call) db := by
  cases call with
  | get key =>
    have settling (m : Store) (holds : P m) : Allows cfg fmt permit before m := early m m holds (.settled .refl)
    refine Prog.Safe.commits (checked.bind fun _ t later => ?_)
    refine Prog.Safe.atomic (Q := Calls cfg fmt permit P n (.get key)) (StandsAmong.assertion settling)
      (fun _ => Calls.assertion settling) later fun u now => ?_
    obtain ⟨m, w, holds, now⟩ := now
    obtain ⟨next, x, run, found⟩ := (now.mono (Nat.le_add_right n 2)).find key
    exact ⟨_, next, run, m, x, ⟨holds, rfl⟩, found⟩
  | set key value => exact write_silent checked early late rfl fun _ => rfl
  | remove key => exact write_silent checked early late rfl fun _ => rfl

end Checked

/-- A call among the steps of the jobs refines a call on the store: it shows no
stores but those on the way, and none from before the write once it has written. -/
theorem Stands.calls (early : ∀ x, Store.Before cfg permit call s x → Allows cfg fmt permit before x)
    (late : ∀ x, Store.After cfg permit call s x → Allows cfg fmt permit after x)
    (stands : Stands cfg fmt permit s v (n + 2) db) :
    (call.prog cfg fmt).Commits (Others cfg permit) before after (fun _ => False)
      (Calls cfg fmt permit (Store.Settles cfg permit s) n call)
      (Calls cfg fmt permit (Store.Settles cfg permit s) n call) db :=
  call_checked (stands.checkFutures fun m settles => early m (.settled settles))
    (fun _ x settles shown => early x (.trans settles shown)) (fun _ x settles shown => late x (.trans settles shown))

end Call
end ProjectDbImpl
end ProjectDb
