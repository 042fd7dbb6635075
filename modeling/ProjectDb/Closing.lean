import ProjectDb.Session

namespace ProjectDb
namespace ProjectDbImpl

variable {cfg : Config} {v w : View} {n futures : Nat} {pending : Option Nat} {db next t : ProjectDbImpl}

/-- Why closing may throw: a file could not be written, or the compaction was
launched outside of the queue by a setting that is negative as an `int`. -/
def CloseFailure (cfg : Config) (e : Exn) : Prop :=
  StreamFailure e ∨ 2 ^ 31 ≤ cfg.numSSTableToCompact.toNat ∧ e = .undefined

theorem anything {rely : ProjectDbImpl → ProjectDbImpl → Prop} :
    Prog.Assertion rely (fun _ => True) fun _ => True := ⟨fun _ _ _ _ => trivial, fun _ _ => trivial⟩

section Flushes

/-- What closing comes to for the view: some of the oldest MemTables have become
SSTables, in their order, that are not in the queue. -/
structure Closing (v w : View) : Prop where
  taken : w.taken = 0
  queue : w.queue = v.queue
  moved : tablesOf w.handed ++ w.memory = tablesOf v.handed ++ v.memory
  last : w.memory.getLast? = v.memory.getLast?

/-- Between two flushes of the destructor; some futures are left, and the window of
the compaction, if there is one, starts where it did before. -/
structure ClosingTo (cfg : Config) (v : View) (n : Nat) (pending : Option Nat) (futures : Nat) (w : View)
    (t : ProjectDbImpl) :
    Prop where
  closing : Closing v w
  ready : Ready cfg anyCompaction w n t
  left : t.flushToDiskFutures.length = futures
  pending : t.pendingStart = pending

theorem Others.futuresLength {permit : List SSTable → Nat → Prop} (step : Others cfg permit db next) :
    next.flushToDiskFutures.length = db.flushToDiskFutures.length := by
  obtain ⟨kind, step, _⟩ := step
  cases step with
  | tick => rfl
  | clean => rfl
  | flush split => simp [split]
  | compaction => rfl

/-- A job that has finished stays the oldest one. -/
theorem Others.head {permit : List SSTable → Nat → Prop} (step : Others cfg permit db next) {job : FlushJob}
    {rest : List FlushJob} (queue : db.flushToDiskFutures = job :: rest) (finished : job.future ≠ .running) :
    ∃ rest, next.flushToDiskFutures = job :: rest := by
  obtain ⟨kind, step, _⟩ := step
  cases step with
  | tick => exact ⟨rest, queue⟩
  | clean => exact ⟨rest, queue⟩
  | compaction => exact ⟨rest, queue⟩
  | @flush _ before after other index files split running =>
    cases before with
    | nil =>
      rw [queue] at split
      cases split
      exact absurd running finished
    | cons first before =>
      rw [queue] at split
      cases split
      exact ⟨_, rfl⟩

theorem ClosingTo.step (closing : ClosingTo cfg v n pending futures w db) (step : Others cfg anyCompaction db next) :
    ClosingTo cfg v n pending futures w next := by
  obtain ⟨closed, ready, left, same⟩ := closing
  exact ⟨closed, (Ready.assertion fun _ _ => trivial).stable ready step, step.futuresLength.trans left,
    step.pendingStart.trans same⟩

/-- After the wait for the oldest flush job: its file is written, or could not be. -/
inductive Waited (cfg : Config) (v : View) (n : Nat) (pending : Option Nat) (futures : Nat) : ProjectDbImpl → Prop
  | written {w : View} {t : ProjectDbImpl} {job : FlushJob} {rest : List FlushJob} :
      ClosingTo cfg v n pending futures w t → t.flushToDiskFutures = job :: rest → job.future ≠ .running →
      Waited cfg v n pending futures t
  | failed {t : ProjectDbImpl} {job : FlushJob} {rest : List FlushJob} {e : Exn} :
      t.flushToDiskFutures = job :: rest → job.future = .ready (.error e) → StreamFailure e →
      Waited cfg v n pending futures t

theorem Waited.assertion :
    Prog.Assertion (Others cfg anyCompaction) (fun _ => True) (Waited cfg v n pending futures) where
  stable s t waited step := by
    cases waited with
    | written closing queue finished =>
      obtain ⟨rest, same⟩ := step.head queue finished
      exact .written (closing.step step) same finished
    | failed queue broken failure =>
      obtain ⟨rest, same⟩ := step.head queue (by rw [broken]; nofun)
      exact .failed same broken failure
  within _ _ := trivial

theorem ClosingTo.waitForFlush (closing : ClosingTo cfg v n pending (futures + 1) w db) :
    ∃ next, ProjectDbImpl.waitForFlush cfg db = .ok () next ∧ Waited cfg v n pending (futures + 1) next := by
  cases queue : db.flushToDiskFutures with
  | nil =>
    have left := closing.left
    rw [queue] at left
    contradiction
  | cons job rest =>
    obtain ⟨pending, _⟩ := closing.ready.inv.flushing.head closing.closing.taken queue
    rcases closing.ready.inv.flushing.sound job (by rw [pending]; exact List.mem_cons_self ..) with
      running | ⟨index, s, done, _⟩
    · cases write : writeSSTable cfg.ssTableIndexBlockSizeInBytes (db.flushedTable job) job.fileName db.files with
      | ok index files =>
        have step : Others cfg anyCompaction db { db with
            files := files, flushToDiskFutures := { job with future := .ready (.ok index) } :: rest } :=
          ⟨.flush, JobStep.flush (show db.flushToDiskFutures = [] ++ job :: rest from queue) running write,
            fun other => by cases other⟩
        refine ⟨_, ?_, .written (closing.step step) rfl (by simp)⟩
        simp only [ProjectDbImpl.waitForFlush, DbM.current, bind, EStateM.bind, queue, running, write]
        rfl
      | error e files =>
        refine ⟨{ db with files := files, flushToDiskFutures := { job with future := .ready (.error e) } :: rest }, ?_,
          .failed rfl rfl (writeSSTable_error write)⟩
        simp only [ProjectDbImpl.waitForFlush, DbM.current, bind, EStateM.bind, queue, running, write]
        rfl
    · refine ⟨db, ?_, .written closing queue (by simp [done])⟩
      simp only [ProjectDbImpl.waitForFlush, DbM.current, bind, EStateM.bind, queue, done]
      rfl

/-- After the result of the oldest flush job has been taken. -/
def Took (cfg : Config) (v : View) (n : Nat) (pending : Option Nat) (futures : Nat) (polled : Polled SSTableIndex)
    (t : ProjectDbImpl) : Prop :=
  ∃ w x memory, (polled = .done x.1 ∧ Closing v w ∧ w.memory = x.2.table :: memory) ∧
    Ready cfg anyCompaction { w with handed := w.handed ++ [x], taken := 1 } n t ∧
    t.flushToDiskFutures.length = futures + 1 ∧ t.pendingStart = pending

theorem Took.assertion (polled : Polled SSTableIndex) :
    Prog.Assertion (Others cfg anyCompaction) (fun _ => True) (Took cfg v n pending futures polled) where
  stable s t took step := by
    obtain ⟨w, x, memory, known, ready, left, same⟩ := took
    exact ⟨w, x, memory, known, (Ready.assertion fun _ _ => trivial).stable ready step, step.futuresLength.trans left,
      step.pendingStart.trans same⟩
  within _ _ := trivial

theorem Waited.takeFlush (waited : Waited cfg v n pending (futures + 1) db) :
    match ProjectDbImpl.takeFlush db with
    | .ok polled next => Took cfg v n pending futures polled next
    | .error e _ => StreamFailure e := by
  cases waited with
  | @written w _ job rest closing queue finished =>
    have left := closing.left
    rcases closing.ready.inv.takeFlush closing.closing.taken with
      ⟨none, _⟩ | ⟨other, others, same, running, _⟩ | ⟨other, others, x, files, same, run, table, inv⟩
    · rw [none] at left
      contradiction
    · rw [queue] at same
      cases same
      exact absurd running finished
    · obtain ⟨memory, front⟩ := closing.ready.inv.flushing.front same
      rw [run]
      refine ⟨w, x, memory, ⟨rfl, closing.closing, by rw [front, table]⟩,
        ⟨inv, closing.ready.sstRoom, closing.ready.txlRoom⟩, ?_, closing.pending⟩
      rw [same] at left
      exact left
  | failed queue broken failure =>
    rw [takeFlush_failed queue broken]
    exact failure

/-- The oldest MemTable is removed once its file is an SSTable. -/
theorem Took.discard {polled : Polled SSTableIndex} (took : Took cfg v n pending futures polled db) :
    ∃ next, ProjectDbImpl.discard db = .ok () next ∧ ∃ w, ClosingTo cfg v n pending futures w next := by
  obtain ⟨w, x, memory, ⟨_, closing, front⟩, ready, left, same⟩ := took
  obtain ⟨files, run, inv⟩ := ready.inv.discard rfl
  obtain ⟨e, f, rest, queue⟩ := ready.inv.flushing.second rfl
  have contents := ready.inv.flushing.memory
  rw [queue, List.map_cons, List.map_cons] at contents
  have nonempty : memory ≠ [] := by
    rintro rfl
    have lengths := congrArg List.length (contents.trans front)
    simp at lengths
  refine ⟨_, run, { w with handed := w.handed ++ [x], logs := w.logs.tail, memory := w.memory.tail, taken := 0 },
    ⟨rfl, closing.queue, ?_, ?_⟩, ⟨inv, ready.sstRoom, ready.txlRoom⟩, ?_, same⟩
  · rw [← closing.moved, front, List.tail_cons, tablesOf_append, List.append_assoc]
    rfl
  · rw [← closing.last, front, List.tail_cons, List.getLast?_cons_of_ne_nil nonempty]
  · simp only [popped, List.length_tail]
    omega

theorem ClosingTo.assertion :
    Prog.Assertion (Others cfg anyCompaction) (fun _ => True) fun t => ∃ w, ClosingTo cfg v n pending futures w t where
  stable s t holds step := by
    obtain ⟨w, closing⟩ := holds
    exact ⟨w, closing.step step⟩
  within _ _ := trivial

/-- The loop of the destructor over the flush jobs. -/
theorem finishFlushes_safe (closing : ∃ w, ClosingTo cfg v n pending futures w db) :
    (finishFlushes cfg futures).Safe (Others cfg anyCompaction) (fun _ => True) (CloseFailure cfg)
      (fun _ t => ∃ w, ClosingTo cfg v n pending 0 w t) db := by
  induction futures generalizing db with
  | zero => exact Prog.Safe.ret (Q := fun _ t => ∃ w, ClosingTo cfg v n pending 0 w t) ClosingTo.assertion closing
  | succ futures ih =>
    refine Prog.Safe.bind (Prog.Safe.atomic (Q := fun _ => Waited cfg v n pending (futures + 1)) ClosingTo.assertion
      (fun _ => Waited.assertion) closing fun t now => ?_) fun _ t waited => ?_
    · obtain ⟨w, closing⟩ := now
      obtain ⟨next, run, waited⟩ := closing.waitForFlush
      exact ⟨(), next, run, waited⟩
    refine Prog.Safe.bind (Prog.Safe.attempt (Q := Took cfg v n pending futures) Waited.assertion Took.assertion anything
      waited fun u now => ?_) fun polled u took => ?_
    · have outcome := now.takeFlush
      cases run : ProjectDbImpl.takeFlush u with
      | ok polled next =>
        rw [run] at outcome
        exact outcome
      | error e broken =>
        rw [run] at outcome
        exact ⟨Or.inl outcome, trivial⟩
    · obtain ⟨_, x, _, ⟨rfl, _⟩, _⟩ := id took
      refine Prog.Safe.bind (Prog.Safe.atomic (Q := fun _ t => ∃ w, ClosingTo cfg v n pending futures w t)
        (Took.assertion _) (fun _ => ClosingTo.assertion) took fun y now => ?_) fun _ y closing => ih closing
      obtain ⟨next, run, closing⟩ := now.discard
      exact ⟨(), next, run, closing⟩

end Flushes

section Compaction

/-- After the wait for the compaction: there is none that is running, or it has failed. -/
inductive CompactionOver (cfg : Config) (v : View) (n : Nat) (pending : Option Nat) : ProjectDbImpl → Prop
  | finished {w : View} {t : ProjectDbImpl} : ClosingTo cfg v n pending 0 w t → ¬ CompactionRunning t →
      CompactionOver cfg v n pending t
  | failed {t : ProjectDbImpl} {job : CompactionJob} {e : Exn} : t.ssTableCompactionFuture = some job →
      job.future = .ready (.error e) → CloseFailure cfg e → CompactionOver cfg v n pending t

/-- A compaction that has failed stays as it is. -/
theorem Others.failedCompaction {permit : List SSTable → Nat → Prop} (step : Others cfg permit db next)
    {job : CompactionJob} (launched : db.ssTableCompactionFuture = some job) (finished : job.future ≠ .running) :
    next.ssTableCompactionFuture = some job := by
  obtain ⟨kind, step, _⟩ := step
  cases step with
  | tick => exact launched
  | clean => exact launched
  | flush => exact launched
  | compaction same running =>
    rw [launched] at same
    cases same
    exact absurd running finished

theorem CompactionOver.assertion :
    Prog.Assertion (Others cfg anyCompaction) (fun _ => True) (CompactionOver cfg v n pending) where
  stable s t ended step := by
    cases ended with
    | finished closing none => exact .finished (closing.step step) fun running => none (step.running running)
    | failed launched broken failure =>
      exact .failed (step.failedCompaction launched (by rw [broken]; nofun)) broken failure
  within _ _ := trivial

theorem ClosingTo.waitForCompaction (closing : ClosingTo cfg v n pending 0 w db) :
    ∃ next, ProjectDbImpl.waitForCompaction cfg db = .ok () next ∧ CompactionOver cfg v n pending next := by
  cases future : db.ssTableCompactionFuture with
  | none =>
    refine ⟨db, ?_, .finished closing ?_⟩
    · simp only [ProjectDbImpl.waitForCompaction, DbM.current, bind, EStateM.bind, future]
      rfl
    · rintro ⟨job, launched, _⟩
      rw [future] at launched
      contradiction
  | some job =>
    obtain ⟨begins, ends, positive, inside, running | ⟨I, done, _⟩⟩ := closing.ready.inv.compacting job future
    · cases merge : SSTableIndexQueue.compact cfg job db with
      | ok merged files =>
        have step : Others cfg anyCompaction db { db with
            files := files, ssTableCompactionFuture := some { job with future := .ready (.ok merged) } } :=
          ⟨.compaction, .compaction future running merge, fun _ _ _ => trivial⟩
        refine ⟨_, ?_, .finished (closing.step step) ?_⟩
        · simp only [ProjectDbImpl.waitForCompaction, DbM.current, bind, EStateM.bind, future, running, merge]
          rfl
        · rintro ⟨other, launched, still⟩
          cases launched
          cases still
      | error e files =>
        have failure : CloseFailure cfg e := by
          rcases compact_error closing.ready.inv.onDisk (by omega) merge with write | ⟨outside, undefined⟩
          · exact Or.inl write
          · refine Or.inr ⟨?_, undefined⟩
            rw [← closing.ready.inv.shelved.queue, List.length_map] at outside
            by_contra small
            have within := inside (by omega)
            omega
        refine ⟨{ db with files := files, ssTableCompactionFuture := some { job with future := .ready (.error e) } }, ?_,
          .failed rfl rfl failure⟩
        simp only [ProjectDbImpl.waitForCompaction, DbM.current, bind, EStateM.bind, future, running, merge]
        rfl
    · refine ⟨db, ?_, .finished closing ?_⟩
      · simp only [ProjectDbImpl.waitForCompaction, DbM.current, bind, EStateM.bind, future, done]
        rfl
      · rintro ⟨other, launched, running⟩
        rw [future] at launched
        cases launched
        rw [done] at running
        contradiction

/-- What the destructor leaves: the queue is as before, or its pending compaction
has been installed; the MemTables before the last one have become SSTables. -/
structure Closed (cfg : Config) (v w : View) (pending : Option Nat) : Prop where
  moved : tablesOf w.handed ++ w.memory = tablesOf v.handed ++ v.memory
  last : w.memory.getLast? = v.memory.getLast?
  few : w.memory.length ≤ 1
  kept : pending = none → tablesOf w.queue = tablesOf v.queue
  compacted : ∀ start, pending = some start → tablesOf w.queue =
    (compactionGroups cfg (v.queue.map Prod.snd) start (cfg.numSSTableToCompact.toNat + 1)).map
      fun group => (mergeGroup group).table

/-- The states after the compaction is over. -/
def ClosedTo (cfg : Config) (v : View) (n : Nat) (pending : Option Nat) (t : ProjectDbImpl) : Prop :=
  ∃ w, Closed cfg v w pending ∧ Ready cfg anyCompaction w n t

theorem ClosedTo.assertion : Prog.Assertion (Others cfg anyCompaction) (fun _ => True) (ClosedTo cfg v n pending) where
  stable s t holds step := by
    obtain ⟨w, closed, ready⟩ := holds
    exact ⟨w, closed, (Ready.assertion fun _ _ => trivial).stable ready step⟩
  within _ _ := trivial

/-- When no flush is left, there is one MemTable at most. -/
theorem ClosingTo.few (closing : ClosingTo cfg v n pending 0 w db) : w.memory.length ≤ 1 := by
  have aligned := congrArg List.length closing.ready.inv.flushing.aligned
  have memory := congrArg List.length closing.ready.inv.flushing.memory
  rw [List.length_map, List.length_map, List.length_dropLast, closing.left] at aligned
  rw [List.length_map] at memory
  omega

theorem CompactionOver.check (ended : CompactionOver cfg v n pending db) :
    (checkSSTableCompactionFuture cfg).Safe (Others cfg anyCompaction) (fun _ => True) (CloseFailure cfg)
      (fun _ => ClosedTo cfg v n pending) db := by
  cases ended with
  | @finished w _ closing none =>
    have safe : (checkSSTableCompactionFuture cfg).Safe (Others cfg anyCompaction) (fun _ => True) (fun _ => False)
        (Checked cfg anyCompaction w n db) db :=
      closing.ready.checkSSTableCompactionFuture (fun _ _ _ => trivial) fun _ _ _ => trivial
    refine (safe.widen fun _ never => never.elim).mono fun running t checked => ?_
    obtain ⟨⟨taken, queue, moved, last⟩, ready, left, same⟩ := id closing
    cases checked with
    | absent absent now _ =>
      have nothing : pending = .none := same.symm.trans (pendingStart_none.mpr absent)
      refine ⟨w, ⟨moved, last, closing.few, fun _ => by rw [queue], fun start some => ?_⟩, now⟩
      rw [nothing] at some
      cases some
    | running running => exact absurd running none
    | @installed _ after start some _ _ tables now _ =>
      have pends : pending = .some start := same.symm.trans some
      refine ⟨{ w with queue := after }, ⟨moved, last, closing.few, fun nothing => ?_, fun begin again => ?_⟩, now⟩
      · rw [pends] at nothing
        cases nothing
      · cases pends.symm.trans again
        exact queue ▸ tables
  | @failed _ job e launched broken failure =>
    have still : Prog.Assertion (Others cfg anyCompaction) (fun _ => True) fun t =>
        t.ssTableCompactionFuture = some job :=
      ⟨fun _ _ same step => step.failedCompaction same (by rw [broken]; nofun), fun _ _ => trivial⟩
    refine Prog.Safe.bind (Prog.Safe.attempt (Q := fun _ _ => False) still
      (fun _ => ⟨fun _ _ never _ => never, fun _ _ => trivial⟩) anything launched fun t same => ?_) fun _ _ never => never.elim
    have run := takeCompaction_failed same broken
    rw [run]
    exact ⟨failure, trivial⟩

theorem Inv.clean {permit : List SSTable → Nat → Prop} (inv : Inv cfg permit v db) {name : FileName}
    (deprecated : name.extension = some .deprecated) : Inv cfg permit v { db with files := db.files.remove name } := by
  have same (n : FileName) (notDeprecated : n.extension ≠ some .deprecated) :
      (db.files.remove name).read n = db.files.read n := by
    rw [Directory.read_remove, if_neg]
    rintro rfl
    exact notDeprecated deprecated
  refine ⟨?_, ?_, ?_, ?_⟩
  · exact inv.flushing.frame ⟨rfl, rfl, rfl, rfl, rfl, rfl⟩ fun n isIp => same n (by rw [isIp]; decide)
  · exact inv.logging.frame ⟨rfl, rfl, rfl, rfl, rfl, rfl⟩ fun n isLog => same n (by rw [isLog]; decide)
  · exact inv.shelved.frame rfl fun n isSst => same n (by rw [isSst]; decide)
  · exact inv.compacting.frame rfl rfl fun n isMerged => same n (by rw [isMerged]; decide)

/-- The destructor returns, unless a file cannot be written or the compaction
was launched outside of the queue. -/
theorem Ready.destroy (ready : Ready cfg anyCompaction v n db) (settled : v.Settled) :
    (ProjectDbImpl.destroy cfg).Safe (Others cfg anyCompaction) (fun _ => True) (CloseFailure cfg)
      (fun _ => ClosedTo cfg v n db.pendingStart) db := by
  have start (futures : Nat) : Prog.Assertion (Others cfg anyCompaction) (fun _ => True) fun t =>
      ∃ w, ClosingTo cfg v n db.pendingStart futures w t := ClosingTo.assertion
  refine Prog.Safe.bind (Prog.Safe.read (start db.flushToDiskFutures.length)
    ⟨v, ⟨settled.taken, rfl, rfl, rfl⟩, ready, rfl, rfl⟩ fun t ⟨_, closing⟩ => closing.left) ?_
  rintro _ t ⟨rfl, closing⟩
  refine (finishFlushes_safe closing).bind fun _ t closing => ?_
  refine Prog.Safe.bind (Prog.Safe.atomic
    (Q := fun _ => CompactionOver cfg v n db.pendingStart) (start 0)
    (fun _ => CompactionOver.assertion) closing fun u now => ?_) fun _ t ended => ?_
  · obtain ⟨w, closing⟩ := now
    obtain ⟨next, run, ended⟩ := closing.waitForCompaction
    exact ⟨(), next, run, ended⟩
  refine ended.check.bind fun _ t closed => ?_
  refine removeFilesWithExt_keeps ClosedTo.assertion (fun u name now deprecated => ?_) closed
  obtain ⟨w, closed, ready⟩ := now
  exact ⟨w, closed, ready.inv.clean deprecated, ready.sstRoom, ready.txlRoom⟩

end Compaction

end ProjectDbImpl
end ProjectDb
