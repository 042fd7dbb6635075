import ProjectDb.Foundation.Framing
import ProjectDb.Linearization
import ProjectDb.Reopening

namespace ProjectDb
namespace ProjectDbImpl

variable {cfg : Config} {fmt : LogFormat} {permit : List SSTable → Nat → Prop} {s : Store} {v : View} {n k limit : Nat}
  {start db next t : ProjectDbImpl} {call : Call} {jobs later : List FlushJob}

theorem anywhere {P : ProjectDbImpl → Prop} (stable : Prog.Stable (Others cfg permit) P) :
    Prog.Assertion (Others cfg permit) Anywhere P :=
  ⟨stable, fun _ _ => trivial⟩

theorem safe_anywhere {α : Type} (p : DbProg α) (s : ProjectDbImpl) :
    p.Safe (Others cfg permit) Anywhere (fun _ => True) (fun _ _ => True) s := by
  induction p generalizing s with
  | ret a => exact fun t _ => ⟨trivial, trivial⟩
  | throw e => exact ⟨fun t _ => trivial, trivial⟩
  | act update next ih => exact fun t _ => ⟨trivial, ih t _⟩

section Deliveries

/-- The oldest `k` jobs have finished, and there are no more than `limit` others. -/
def Finished (limit : Nat) : Nat → List FlushJob → Prop
  | 0, jobs => jobs.length ≤ limit
  | _ + 1, [] => False
  | k + 1, job :: jobs => job.future ≠ .running ∧ Finished limit k jobs

theorem finished_append {done : List FlushJob} (finished : ∀ job ∈ done, job.future ≠ .running) (rest : List FlushJob) :
    Finished rest.length done.length (done ++ rest) := by
  induction done with
  | nil => exact le_rfl
  | cons job done ih =>
    exact ⟨finished job List.mem_cons_self, ih fun other member => finished other (List.mem_cons_of_mem _ member)⟩

theorem Finished.le_length (finished : Finished limit k jobs) : k ≤ jobs.length := by
  induction k generalizing jobs with
  | zero => exact Nat.zero_le _
  | succ k ih =>
    cases jobs with
    | nil => exact finished.elim
    | cons job jobs => exact Nat.succ_le_succ (ih finished.2)

/-- The oldest job is handed over, whether it is one of the `k` or not. -/
theorem Finished.tail (finished : Finished limit k jobs) : Finished limit (k - 1) jobs.tail := by
  cases k with
  | zero =>
    change jobs.tail.length ≤ limit
    rw [List.length_tail]
    exact (Nat.sub_le _ _).trans finished
  | succ k =>
    cases jobs with
    | nil => exact finished.elim
    | cons job jobs => exact finished.2

/-- A flush job that has finished is not touched by the steps of others. -/
theorem Others.flushJobs (step : Others cfg permit db next) :
    List.Forall₂ (fun job job' => job' = job ∨ job.future = .running) db.flushToDiskFutures next.flushToDiskFutures := by
  have same (jobs : List FlushJob) : List.Forall₂ (fun job job' => job' = job ∨ job.future = .running) jobs jobs :=
    List.forall₂_same.mpr fun _ _ => Or.inl rfl
  obtain ⟨kind, step, _⟩ := step
  cases step with
  | tick => exact same _
  | clean => exact same _
  | compaction => exact same _
  | flush split running =>
    rw [split]
    exact List.rel_append (same _) (.cons (Or.inr running) (same _))

theorem Finished.others (finished : Finished limit k jobs)
    (step : List.Forall₂ (fun job job' => job' = job ∨ job.future = .running) jobs later) : Finished limit k later := by
  induction k generalizing jobs later with
  | zero =>
    change later.length ≤ limit
    rw [← step.length_eq]
    exact finished
  | succ k ih =>
    cases step with
    | nil => exact finished.elim
    | cons changed step =>
      obtain ⟨ended, finished⟩ := finished
      rw [changed.resolve_right ended]
      exact ⟨ended, ih finished step⟩

theorem finished_stable :
    Prog.Stable (Others cfg permit) fun t => Finished limit k t.flushToDiskFutures :=
  fun _ _ finished step => finished.others step.flushJobs

/-- What the poll of the oldest flush job comes to. -/
def PollsFlush (limit k : Nat) : Polled SSTableIndex → ProjectDbImpl → Prop
  | .done _, t => Finished limit (k - 1) t.flushToDiskFutures.tail
  | _, t => k = 0 ∧ Finished limit 0 t.flushToDiskFutures

theorem PollsFlush.stable (polled : Polled SSTableIndex) :
    Prog.Stable (Others cfg permit) (PollsFlush limit k polled) := by
  intro t u holds step
  cases polled with
  | absent => exact ⟨holds.1, finished_stable holds.2 step⟩
  | pending => exact ⟨holds.1, finished_stable holds.2 step⟩
  | done index =>
    have tails := List.forall₂_drop 1 step.flushJobs
    rw [List.drop_one, List.drop_one] at tails
    exact Finished.others holds tails

theorem takeFlush_polls (finished : Finished limit k t.flushToDiskFutures) :
    match takeFlush t with
    | .ok polled u => PollsFlush limit k polled u
    | .error _ _ => True := by
  cases olds : t.flushToDiskFutures with
  | nil =>
    rw [takeFlush_absent olds]
    rw [olds] at finished
    have none : k = 0 := Nat.le_zero.mp finished.le_length
    exact ⟨none, olds.symm ▸ none ▸ finished⟩
  | cons job rest =>
    have tail : Finished limit (k - 1) rest := by
      rw [olds] at finished
      exact finished.tail
    cases state : job.future with
    | running =>
      rw [takeFlush_running olds state]
      rw [olds] at finished
      cases k with
      | zero => exact ⟨rfl, olds.symm ▸ finished⟩
      | succ k => exact absurd state finished.1
    | consumed =>
      rw [takeFlush_consumed olds state]
      trivial
    | ready result =>
      cases result with
      | error e =>
        rw [takeFlush_failed olds state]
        trivial
      | ok index =>
        rw [takeFlush_done olds state]
        cases removeExtAndRename index.ssTableFileName t.files with
        | ok name files => exact tail
        | error e files => trivial

theorem handOver_polls (index : SSTableIndex) (finished : Finished limit (k - 1) t.flushToDiskFutures.tail) :
    match handOver index t with
    | .ok _ u => Finished limit (k - 1) u.flushToDiskFutures
    | .error _ _ => True := by
  cases queue : t.memTableQueue with
  | nil =>
    simp only [handOver, SSTableIndexQueue.insert, MemTableQueue.pop, DbM.current, DbM.change, bind, EStateM.bind, queue]
    trivial
  | cons front rest =>
    simp only [handOver, SSTableIndexQueue.insert, MemTableQueue.pop, DbM.current, DbM.change, DbM.assign, DbM.file,
      bind, EStateM.bind, queue]
    cases markFileAsDeprecated front.2.transactionLogFileName t.files with
    | ok _ files => exact finished
    | error e files => trivial

/-- One pass of the loop hands the oldest job over if it has finished. -/
theorem pass_delivers (finished : Finished limit k db.flushToDiskFutures) :
    pass.Safe (Others cfg permit) Anywhere (fun _ => True)
      (fun handedOver t => (handedOver = false → k = 0) ∧ Finished limit (k - 1) t.flushToDiskFutures) db := by
  have later (handedOver : Bool) : Prog.Assertion (Others cfg permit) Anywhere fun t =>
      (handedOver = false → k = 0) ∧ Finished limit (k - 1) t.flushToDiskFutures :=
    anywhere fun _ _ holds step => ⟨holds.1, finished_stable holds.2 step⟩
  have broken : Prog.Assertion (Others cfg permit) Anywhere fun _ => True := anywhere fun _ _ _ _ => trivial
  refine Prog.Safe.bind (Prog.Safe.attempt (Q := PollsFlush limit k) (anywhere finished_stable)
    (fun polled => anywhere (PollsFlush.stable polled)) broken finished fun t now => ?_) fun polled t holds => ?_
  · have polls := takeFlush_polls now
    cases run : takeFlush t with
    | ok polled u =>
      rw [run] at polls
      exact polls
    | error e u => exact ⟨trivial, trivial⟩
  · cases polled with
    | absent => exact Prog.Safe.ret (later false) ⟨fun _ => holds.1, by rw [holds.1]; exact holds.2⟩
    | pending => exact Prog.Safe.ret (later false) ⟨fun _ => holds.1, by rw [holds.1]; exact holds.2⟩
    | done index =>
      refine Prog.Safe.bind (Prog.Safe.attempt (Q := fun _ t => Finished limit (k - 1) t.flushToDiskFutures)
        (anywhere (PollsFlush.stable (.done index))) (fun _ => anywhere finished_stable) broken holds fun u now => ?_)
        fun _ u handed => Prog.Safe.ret (later true) ⟨by simp, handed⟩
      have polls := handOver_polls index now
      cases run : handOver index u with
      | ok _ x =>
        rw [run] at polls
        exact polls
      | error e x => exact ⟨trivial, trivial⟩

/-- The loop ends when no finished job is left in front. -/
theorem drain_delivers (futures : Nat) (finished : Finished limit k db.flushToDiskFutures) (enough : k ≤ futures) :
    (drain futures).Safe (Others cfg permit) Anywhere (fun _ => True)
      (fun _ t => Finished limit 0 t.flushToDiskFutures) db := by
  have last : Prog.Assertion (Others cfg permit) Anywhere fun t : ProjectDbImpl => Finished limit 0 t.flushToDiskFutures :=
    anywhere finished_stable
  induction futures generalizing k db with
  | zero =>
    obtain rfl : k = 0 := Nat.le_zero.mp enough
    exact Prog.Safe.ret (Q := fun _ (t : ProjectDbImpl) => Finished limit 0 t.flushToDiskFutures) last finished
  | succ futures ih =>
    refine (pass_delivers finished).bind fun handedOver t holds => ?_
    cases handedOver with
    | true => exact ih holds.2 (by omega)
    | false =>
      have none := holds.1 rfl
      subst none
      exact Prog.Safe.ret (Q := fun _ (t : ProjectDbImpl) => Finished limit 0 t.flushToDiskFutures) last holds.2

/-- The flush jobs that are waited for. -/
abbrev flushJobs (db : ProjectDbImpl) : List FlushJob := db.flushToDiskFutures

theorem markCompacted_flushJobs (range : List SSTableIndex) : (SSTableIndexQueue.markCompacted range).Keeps flushJobs := by
  induction range with
  | nil => trivial
  | cons index rest ih => exact (Prog.Keeps.atomic fun s => file_left _ flushJobs s fun _ => rfl).bind fun _ => ih

theorem renameMerged_flushJobs (merged : List SSTableIndex) : (SSTableIndexQueue.renameMerged merged).Keeps flushJobs := by
  induction merged with
  | nil => trivial
  | cons index rest ih =>
    exact (Prog.Keeps.atomic fun s => file_left _ flushJobs s fun _ => rfl).bind fun _ => ih.bind fun _ => trivial

theorem update_flushJobs (merged : List SSTableIndex) : (SSTableIndexQueue.update cfg merged).Keeps flushJobs := by
  refine (Prog.Keeps.read _).bind fun self => ?_
  dsimp only
  split_ifs
  · trivial
  · trivial
  · trivial
  · refine (markCompacted_flushJobs _).bind fun _ => (Prog.Keeps.atomic fun _ => rfl).bind fun _ => ?_
    exact (renameMerged_flushJobs merged).bind fun renamed => Prog.Keeps.atomic fun _ => rfl

theorem takeCompaction_flushJobs (s : ProjectDbImpl) : flushJobs (takeCompaction.left s) = flushJobs s := by
  refine EStateM.left_bind_same rfl fun db t run => ?_
  cases run
  cases s.ssTableCompactionFuture with
  | none => rfl
  | some job =>
    dsimp only
    cases job.future with
    | running => rfl
    | consumed => rfl
    | ready result =>
      refine EStateM.left_bind_same rfl fun _ t _ => ?_
      cases result <;> rfl

theorem checkSSTableCompactionFuture_flushJobs : (checkSSTableCompactionFuture cfg).Keeps flushJobs := by
  refine (Prog.Keeps.atomic takeCompaction_flushJobs).bind fun polled => ?_
  cases polled with
  | absent => trivial
  | pending => trivial
  | done merged =>
    exact (update_flushJobs merged).bind fun _ => (Prog.Keeps.atomic fun _ => rfl).bind fun _ => trivial

/-- What the poll of the compaction says of its future. -/
def Answers (db : ProjectDbImpl) (running : Bool) (t : ProjectDbImpl) : Prop :=
  running = true → t.ssTableCompactionFuture ≠ none ∧ CompactionRunning db

theorem Answers.assertion (running : Bool) : Prog.Assertion (Others cfg permit) Anywhere (Answers db running) :=
  anywhere fun _ _ holds step answer => ⟨fun idle => (holds answer).1 (step.idle.mp idle), (holds answer).2⟩

theorem checkSSTableCompactionFuture_answers (cfg : Config) (permit : List SSTable → Nat → Prop) (db : ProjectDbImpl) :
    (checkSSTableCompactionFuture cfg).Safe (Others cfg permit) Anywhere (fun _ => True) (Answers db) db := by
  have before : Prog.Assertion (Others cfg permit) Anywhere fun t => CompactionRunning t → CompactionRunning db :=
    anywhere fun _ _ earlier step running => earlier (step.running running)
  have broken : Prog.Assertion (Others cfg permit) Anywhere fun _ => True := anywhere fun _ _ _ _ => trivial
  refine Prog.Safe.bind (Prog.Safe.attempt (Q := fun polled => Answers db (polled matches .pending)) before
    (fun _ => Answers.assertion _) broken id fun t earlier => ?_) fun polled t holds => ?_
  · cases future : t.ssTableCompactionFuture with
    | none =>
      rw [takeCompaction_absent future]
      exact nofun
    | some job =>
      cases state : job.future with
      | running =>
        rw [takeCompaction_running future state]
        exact fun _ => ⟨by simp [future], earlier ⟨job, future, state⟩⟩
      | consumed =>
        rw [takeCompaction_consumed future state]
        exact ⟨trivial, trivial⟩
      | ready result =>
        cases result with
        | error e =>
          rw [takeCompaction_failed future state]
          exact ⟨trivial, trivial⟩
        | ok merged =>
          rw [takeCompaction_done future state]
          exact nofun
  · cases polled with
    | absent => exact Prog.Safe.ret (Answers.assertion false) holds
    | pending => exact Prog.Safe.ret (Answers.assertion true) holds
    | done merged =>
      refine Prog.Safe.bind (safe_anywhere _ t) fun _ u _ => Prog.Safe.bind (safe_anywhere _ u) fun _ x _ => ?_
      exact Prog.Safe.ret (Answers.assertion false) nofun

/-- What is known of the queue of the flush jobs lasts through actions that do not touch it. -/
theorem finished_kept {α : Type} {p : DbProg α} (keeps : p.Keeps flushJobs)
    (finished : Finished limit k db.flushToDiskFutures) :
    p.Safe (Others cfg permit) Anywhere (fun _ => True) (fun _ t => Finished limit k t.flushToDiskFutures) db :=
  Prog.Safe.weaken (keeps.safe finished_stable (fun _ _ same holds => (congrArg (Finished limit k) same).mpr holds)
    finished fun _ => trivial) fun _ _ => trivial

/-- A store after a check of the futures that finds no compaction running: one
that has finished is installed, and all MemTables but those of `limit` flushes
and the newest one are handed over. -/
def Delivered (cfg : Config) (permit : List SSTable → Nat → Prop) (s : Store) (absent : Prop) (limit : Nat)
    (m : Store) : Prop :=
  ∃ base, CollectedStore cfg permit s absent false base ∧ Store.Hands cfg base m ∧ m.memTables.length ≤ limit + 1

/-- All MemTables but the newest one are being flushed. -/
theorem Stands.flushing_length (stands : Stands cfg fmt permit s v n db) :
    s.memTables.length = db.memTableQueue.length ∧ db.flushToDiskFutures.length = s.memTables.length - 1 := by
  have memory := congrArg List.length (stands.ready.inv.flushing.memory.trans stands.memory.memory)
  have aligned := congrArg List.length stands.ready.inv.flushing.aligned
  simp only [List.length_map, List.length_dropLast] at memory aligned
  exact ⟨memory.symm, by omega⟩

/-- With no compaction running, the check of the futures hands over the MemTables of all finished jobs. -/
theorem Stands.delivers (stands : Stands cfg fmt permit s v n db) (finished : Finished limit k db.flushToDiskFutures)
    (idle : ¬ CompactionRunning db) :
    (ProjectDbImpl.checkFutures cfg).Safe (Others cfg permit) Anywhere (fun _ => False)
      (fun _ => StandsAmong cfg fmt permit (Delivered cfg permit s (db.ssTableCompactionFuture = none) limit) n) db := by
  have anything (m x : Store) (_ : Store.Settles cfg permit m x) : Allows cfg fmt permit Anywhere x := fun _ _ _ => trivial
  have checked := ((stands.collect (anything s)).and (checkSSTableCompactionFuture_answers cfg permit db)).and
    (finished_kept checkSSTableCompactionFuture_flushJobs finished)
  refine Prog.Safe.bind ((checked.weaken fun _ _ => trivial).widen fun _ never => never.1.1) fun running t holds => ?_
  obtain ⟨⟨⟨⟨base, w, collected, now⟩, free⟩, answers⟩, ended⟩ := holds
  cases running with
  | true => exact absurd (answers rfl).2 idle
  | false =>
    have before : Prog.Assertion (Others cfg permit) Anywhere fun t => Stands cfg fmt permit base w n t ∧
        t.ssTableCompactionFuture = none ∧ Finished limit k t.flushToDiskFutures :=
      (Stands.assertion (anything base base .refl)).and
        fun _ _ holds step => ⟨step.idle.mpr holds.1, finished_stable holds.2 step⟩
    refine Prog.Safe.bind (Prog.Safe.readAs (Q := fun futures t => k ≤ futures ∧ Stands cfg fmt permit base w n t ∧
        t.ssTableCompactionFuture = none ∧ Finished limit k t.flushToDiskFutures)
      before (fun futures => anywhere fun _ _ holds step => ⟨holds.1, before.stable holds.2 step⟩) ⟨now, free rfl, ended⟩
      fun u now => ⟨now.2.2.le_length, now⟩) fun futures u read => ?_
    obtain ⟨enough, now, free, ended⟩ := read
    have drained := (now.drain (anything base) futures free).and (drain_delivers futures ended enough)
    refine ((drained.weaken fun _ _ => trivial).widen fun _ never => never.1).bind fun _ x holds => ?_
    refine Prog.Safe.atomic (Q := fun _ => StandsAmong cfg fmt permit
        (Delivered cfg permit s (db.ssTableCompactionFuture = none) limit) n)
      ((DrainedStore.assertion (anything base)).and fun _ _ few step => finished_stable few step)
      (fun _ => StandsAmong.assertion fun _ _ _ _ _ => trivial) holds ?_
    rintro y ⟨⟨⟨m, z, hands, later⟩, free⟩, few⟩
    have few : y.flushToDiskFutures.length ≤ limit := few
    have lengths := later.flushing_length
    obtain ⟨next, run, launched⟩ := later.launchCompaction free
    exact ⟨(), next, run, m, z, ⟨base, collected, hands, by omega⟩, launched⟩

variable {files : Files} {tables : List (Nat × SSTable)} {logs : List (Nat × List Byte)} {events : List Event}
  {done rest : List FlushJob} {answer : Option StdString}

/-- The SSTables with a compaction installed, if there is one on its way. -/
def installedTables (cfg : Config) (db : ProjectDbImpl) (ssTables : List SSTable) : List SSTable :=
  match db.ssTableCompactionFuture with
  | none => ssTables
  | some _ => (afterCompaction cfg ssTables (startIndex db)).1

theorem CollectedStore.ssTables {base : Store}
    (collected : CollectedStore cfg permit s (db.ssTableCompactionFuture = none) false base)
    (start : startIndex db = s.start) :
    base.ssTables = installedTables cfg db s.ssTables ∧ base.memTables = s.memTables := by
  unfold installedTables
  cases collected with
  | absent none => exact ⟨by rw [none], rfl⟩
  | installed some =>
    obtain ⟨job, future⟩ := Option.ne_none_iff_exists'.mp some
    rw [future, start]
    exact ⟨rfl, rfl⟩

/-- While no compaction runs, the next call hands over the tables of all flush
jobs that have finished when it starts, up to the first one that has not: only
the MemTables of the others stay, with the newest one and one that the call
itself has filled, and the tables follow on the SSTables that were there, with a
finished compaction installed. -/
theorem call_delivers (disk : Disk files tables logs) (opened : Opened cfg fmt permit files start)
    (session : Session cfg fmt permit start events db) (bounded : db.Bounded) (queue : db.flushToDiskFutures = done ++ rest)
    (finished : ∀ job ∈ done, job.future ≠ .running) (idle : ¬ CompactionRunning db)
    (path : Prog.Reaches (Others cfg permit) (call.prog cfg fmt) db (.ret answer) t) :
    (t.flushToDiskFutures.length ≤ rest.length + call.operation.toList.length ∧
      t.memTableQueue.length ≤ rest.length + call.operation.toList.length + 1) ∧
      ∃ xs ys added, OnDisk db.files db.ssTableIndexQueue.queue xs ∧ OnDisk t.files t.ssTableIndexQueue.queue ys ∧
        ys.map Prod.snd = installedTables cfg db (xs.map Prod.snd) ++ added ∧ done.length ≤ added.length ∧
        (added.map fun x => x.table) = (db.memTableQueue.map fun e => db.tables e.1.table).take added.length := by
  obtain ⟨memory, loads⟩ := opened.loads disk
  obtain ⟨v, represents⟩ := opened.represents disk loads
  obtain ⟨s, w, _, now⟩ := session.storeRun represents
  have stands := now.stands bounded
  have anything (x : Store) : Allows cfg fmt permit Anywhere x := fun _ _ _ => trivial
  have checked := stands.delivers (queue ▸ finished_append finished rest) idle
  have commits := call_checked (n := 0) checked (fun _ x _ (_ : Store.Before cfg permit call _ x) => anything x)
    fun _ x _ _ => anything x
  have safe : (call.prog cfg fmt).Safe (Others cfg permit) Anywhere (fun _ => False) (Calls cfg fmt permit _ 0 call) db :=
    commits.safe (fun _ _ => trivial) fun _ _ ends => ends.elim id id
  obtain ⟨m, x, ⟨⟨base, collected, hands, few⟩, _⟩, later⟩ := (safe.reaches path).returned
  have lengths := later.flushing_length
  have called := Store.called_length cfg call m
  obtain ⟨moved, added, handed, appended, same⟩ := hands.appends
  obtain ⟨installed, kept⟩ := collected.ssTables now.start
  have jobs := stands.flushing_length.2
  have count : added.length = moved.length := by simpa using congrArg List.length same
  have split := congrArg List.length handed
  rw [kept, List.length_append] at split
  rw [queue, List.length_append] at jobs
  refine ⟨⟨by omega, by omega⟩, w.queue, x.queue, added, now.inv.onDisk, later.ready.inv.onDisk, ?_, by omega, ?_⟩
  · rw [later.queue, (Store.called_ssTables cfg call m).1, appended, installed, now.queue]
  · rw [same, count, now.inv.flushing.memory.trans now.memory.memory, ← kept, handed, List.map_append,
      List.take_left' (List.length_map _)]

/-- The job has finished. -/
def FlushJob.ended (job : FlushJob) : Bool :=
  match job.future with
  | .running => false
  | _ => true

/-- Two of three flushes have finished when the call starts. -/
theorem call_delivers_sample : ∃ events db t,
    play sessionConfig transactionLog (opened sessionConfig transactionLog)
        [.call (.set sampleKey oldString), .call (.set otherKey newString), .call (.remove sampleKey), .flush 1, .flush 0] =
          some (events, db) ∧
      ((Call.get otherKey).prog sessionConfig transactionLog).run db = .ok (some newString) t ∧
      (db.flushToDiskFutures.length, db.memTableQueue.length) = (3, 4) ∧
      (t.flushToDiskFutures.length ≤ 1 ∧ t.memTableQueue.length ≤ 2) ∧
      ∃ xs ys added, OnDisk db.files db.ssTableIndexQueue.queue xs ∧ OnDisk t.files t.ssTableIndexQueue.queue ys ∧
        ys.map Prod.snd = xs.map Prod.snd ++ added ∧ 2 ≤ added.length ∧
        (added.map fun x => x.table) = (db.memTableQueue.map fun e => db.tables e.1.table).take added.length := by
  have played : ((play sessionConfig transactionLog (opened sessionConfig transactionLog)
      [.call (.set sampleKey oldString), .call (.set otherKey newString), .call (.remove sampleKey), .flush 1, .flush 0]).bind
        fun result => (((Call.get otherKey).prog sessionConfig transactionLog).run result.2).ok?.map fun ended =>
          ((ended.1, result.2.flushToDiskFutures.length, result.2.memTableQueue.length),
            (result.2.flushToDiskFutures.take 2).all FlushJob.ended,
            result.2.ssTableCompactionFuture.isNone, decide result.2.Bounded)) =
      some ((some newString, 3, 4), true, true, true) := by decide +kernel
  obtain ⟨⟨events, db⟩, run, rest⟩ := Option.bind_eq_some_iff.mp played
  obtain ⟨⟨answer, t⟩, returned, seen⟩ := Option.map_eq_some_iff.mp rest
  simp only [Prod.mk.injEq, List.all_eq_true, decide_eq_true_eq, Option.isNone_iff_eq_none] at seen
  obtain ⟨⟨rfl, jobs, memTables⟩, finished, idle, bounded⟩ := seen
  have session : Session sessionConfig transactionLog anyCompaction (opened sessionConfig transactionLog)
      events db := play_session .opened (permitted_of fun _ _ _ => trivial) run
  have answered := EStateM.Result.ok?_eq_some.mp returned
  have ended : ∀ job ∈ db.flushToDiskFutures.take 2, job.future ≠ .running := by
    intro job member running
    have known := finished job member
    simp [FlushJob.ended, running] at known
  have free : ¬ CompactionRunning db := fun running => running.launched idle
  have delivered := call_delivers disk_empty opened_opened session bounded (List.take_append_drop 2 _).symm ended free
    (Prog.reaches_returns answered)
  rw [List.length_drop, List.length_take, jobs] at delivered
  simp only [installedTables, idle] at delivered
  exact ⟨events, db, t, run, answered, by rw [jobs, memTables], delivered⟩

end Deliveries

section Compactions

/-- There are enough new SSTables for a compaction only while one is on its way. -/
def CaughtUp (cfg : Config) (t : ProjectDbImpl) : Prop :=
  t.ssTableCompactionFuture = none →
    t.ssTableIndexQueue.queue.length ≤ startIndex t + cfg.numSSTableToCompact.toNat

theorem CaughtUp.stable : Prog.Stable (Others cfg permit) (CaughtUp cfg) := by
  intro s t caughtUp step idle
  rw [step.startIndex, step.ssTableIndexQueue]
  exact caughtUp (step.idle.mp idle)

theorem CaughtUp.of_part (caughtUp : CaughtUp cfg db) (same : t.compactionPart = db.compactionPart) : CaughtUp cfg t := by
  intro idle
  obtain ⟨⟨queue, start⟩, future⟩ := Prod.mk.inj same |>.imp Prod.mk.inj id
  have length := congrArg List.length queue
  rw [List.length_map, List.length_map] at length
  rw [length, startIndex, start]
  exact caughtUp (future.symm.trans idle)

/-- A compaction that is not launched would not have had enough tables. -/
theorem tryLaunchCompaction_none (launch : SSTableIndexQueue.tryLaunchCompaction cfg db = .ok none db)
    (positive : 0 < cfg.numSSTableToCompact.toNat) (small : cfg.numSSTableToCompact.toNat < 2 ^ 31)
    (few : db.ssTableIndexQueue.queue.length ≤ 2 ^ 31) :
    db.ssTableIndexQueue.queue.length ≤ startIndex db + cfg.numSSTableToCompact.toNat := by
  unfold SSTableIndexQueue.tryLaunchCompaction at launch
  simp only [DbM.current, bind, EStateM.bind] at launch
  split_ifs at launch with off less
  · rw [off] at positive
    contradiction
  · simp only [Int.bmod_def] at less
    unfold startIndex
    omega
  · cases launch

theorem Inv.queue_short (inv : Inv cfg permit v db) (low : db.ssTableFileCounterBase < 2 ^ 31) :
    db.ssTableIndexQueue.queue.length ≤ 2 ^ 31 := by
  have increasing := (List.pairwise_append.mp inv.flushing.order).1
  have bounded : ∀ c ∈ v.shelf.map counterOf, c < 2 ^ 31 := fun c member =>
    (inv.flushing.base c (List.mem_append_left _ member)).trans_lt low
  have fits := length_le_of_increasing increasing bounded
  rw [← inv.shelved.queue]
  simp only [View.shelf, List.length_map, List.length_append] at fits ⊢
  omega

theorem Inv.launch_catchesUp (inv : Inv cfg permit v db) (low : db.ssTableFileCounterBase < 2 ^ 31)
    (positive : 0 < cfg.numSSTableToCompact.toNat) (small : cfg.numSSTableToCompact.toNat < 2 ^ 31) :
    ∃ next, ProjectDbImpl.launchCompaction cfg db = .ok () next ∧ CaughtUp cfg next := by
  rcases tryLaunchCompaction_eq cfg db with launch | ⟨_, launch⟩
  · refine ⟨db, ?_, fun _ => tryLaunchCompaction_none launch positive small (inv.queue_short low)⟩
    simp only [ProjectDbImpl.launchCompaction, bind, EStateM.bind, launch]
    rfl
  · refine ⟨{ db with ssTableCompactionFuture := some (windowJob cfg db) }, ?_, fun idle => absurd idle (Option.some_ne_none _)⟩
    simp only [ProjectDbImpl.launchCompaction, bind, EStateM.bind, launch]
    rfl

/-- The check of the futures ends with a compaction under way, or with too few tables for one. -/
theorem Stands.catchesUp (stands : Stands cfg fmt permit s v (2 ^ 31) db) (positive : 0 < cfg.numSSTableToCompact.toNat)
    (small : cfg.numSSTableToCompact.toNat < 2 ^ 31) :
    (ProjectDbImpl.checkFutures cfg).Safe (Others cfg permit) Anywhere (fun _ => False) (fun _ => CaughtUp cfg) db := by
  have anything (m : Store) (_ : Store.Settles cfg permit s m) : Allows cfg fmt permit Anywhere m := fun _ _ _ => trivial
  have checked := (stands.collect anything).and (checkSSTableCompactionFuture_answers cfg permit db)
  refine Prog.Safe.bind ((checked.weaken fun _ _ => trivial).widen fun _ never => never.1) fun running t holds => ?_
  obtain ⟨⟨⟨m, w, collected, now⟩, idle⟩, answers⟩ := holds
  cases running with
  | true =>
    exact Prog.Safe.ret (Q := fun _ => CaughtUp cfg) (anywhere CaughtUp.stable) fun none => absurd none (answers rfl).1
  | false =>
    have further (x : Store) (more : Store.Settles cfg permit m x) : Allows cfg fmt permit Anywhere x :=
      anything x (collected.settles.trans more)
    have before : Prog.Assertion (Others cfg permit) Anywhere fun t =>
        Stands cfg fmt permit m w (2 ^ 31) t ∧ t.ssTableCompactionFuture = none :=
      (Stands.assertion (further m .refl)).and fun _ _ idle step => step.idle.mpr idle
    refine Prog.Safe.bind (Prog.Safe.readAs (Q := fun _ t => Stands cfg fmt permit m w (2 ^ 31) t ∧ t.ssTableCompactionFuture = none)
      before (fun _ => before) ⟨now, idle rfl⟩ fun _ now => now) fun futures u now => ?_
    refine (now.1.drain further futures now.2).bind fun _ x drained => ?_
    refine Prog.Safe.atomic (DrainedStore.assertion further) (fun _ => anywhere CaughtUp.stable) drained ?_
    rintro y ⟨⟨o, z, _, later⟩, _⟩
    obtain ⟨next, run, caughtUp⟩ := later.ready.inv.launch_catchesUp (by have room := later.ready.sstRoom; omega) positive small
    exact ⟨(), next, run, caughtUp⟩

/-- Nothing that a call does after its check of the futures concerns the compaction. -/
theorem caughtUp_kept {α : Type} {p : DbProg α} (keeps : p.Keeps compactionPart) (caughtUp : CaughtUp cfg db) :
    p.Safe (Others cfg permit) Anywhere (fun _ => True) (fun _ => CaughtUp cfg) db :=
  Prog.Safe.weaken (keeps.safe CaughtUp.stable (fun _ _ same holds => holds.of_part same) caughtUp fun _ => trivial)
    fun _ _ => trivial

theorem Stands.call_catchesUp (stands : Stands cfg fmt permit s v (2 ^ 31) db) (positive : 0 < cfg.numSSTableToCompact.toNat)
    (small : cfg.numSSTableToCompact.toNat < 2 ^ 31) (call : Call) :
    (call.prog cfg fmt).Safe (Others cfg permit) Anywhere (fun _ => True) (fun _ => CaughtUp cfg) db := by
  have checked : (ProjectDbImpl.checkFutures cfg).Safe (Others cfg permit) Anywhere (fun _ => True) (fun _ => CaughtUp cfg) db :=
    (stands.catchesUp positive small).widen fun _ _ => trivial
  have wrote (op : Operation) :
      (ProjectDbImpl.write cfg fmt op).Safe (Others cfg permit) Anywhere (fun _ => True) (fun _ => CaughtUp cfg) db :=
    checked.bind fun _ t now => caughtUp_kept (((Prog.Keeps.atomic prepare_part).bind fun _ =>
      Prog.Keeps.atomic (append_part fmt op)).bind fun _ => Prog.Keeps.atomic launchFlush_part) now
  cases call with
  | get key => exact checked.bind fun _ t now => caughtUp_kept (Prog.Keeps.atomic (find_part key)) now
  | set key value => exact (wrote (.set key value)).bind fun _ t now => caughtUp_kept trivial now
  | remove key => exact (wrote (.remove key)).bind fun _ t now => caughtUp_kept trivial now

variable {files : Files} {tables : List (Nat × SSTable)} {logs : List (Nat × List Byte)} {events : List Event}

/-- From the first call of a session on, whenever no compaction is on its way
there are too few new SSTables for one, at any time between two calls. -/
theorem compaction_keeps_up (disk : Disk files tables logs) (opened : Opened cfg fmt permit files start)
    (positive : 0 < cfg.numSSTableToCompact.toNat) (small : cfg.numSSTableToCompact.toNat < 2 ^ 31)
    (session : Session cfg fmt permit start events db) (called : events ≠ []) (idle : db.ssTableCompactionFuture = none) :
    db.ssTableIndexQueue.queue.length ≤ startIndex db + cfg.numSSTableToCompact.toNat := by
  obtain ⟨memory, loads⟩ := opened.loads disk
  obtain ⟨v, represents⟩ := opened.represents disk loads
  refine (?_ : CaughtUp cfg db) idle
  clear idle
  induction session with
  | opened => contradiction
  | job _ step ih => exact CaughtUp.stable (ih called) step
  | returned before bounded path _ =>
    obtain ⟨s, w, _, now⟩ := before.storeRun represents
    have stands : Stands cfg fmt permit s w (2 ^ 31) _ :=
      ⟨now.inv.roomy bounded, now.settled, now.memory, now.queue, now.start⟩
    exact ((stands.call_catchesUp positive small _).reaches path).returned
  | threw before bounded path _ =>
    obtain ⟨s, w, _, now⟩ := before.storeRun represents
    exact (now.inv.notThrown now.settled bounded path).elim

/-- Three tables are in the queue, and four are compacted at once. -/
theorem compaction_keeps_up_sample : ∃ events db,
    play sessionConfig transactionLog (opened sessionConfig transactionLog)
        [.call (.set sampleKey oldString), .call (.set otherKey newString), .call (.remove sampleKey), .flush 0, .flush 1,
          .flush 2, .call (.get sampleKey)] = some (events, db) ∧
      db.ssTableIndexQueue.queue.length = 3 ∧ db.ssTableIndexQueue.queue.length ≤ startIndex db + 3 := by
  have played : (play sessionConfig transactionLog (opened sessionConfig transactionLog)
      [.call (.set sampleKey oldString), .call (.set otherKey newString), .call (.remove sampleKey), .flush 0, .flush 1,
        .flush 2, .call (.get sampleKey)]).map (fun result =>
          (result.1.isEmpty, result.2.ssTableIndexQueue.queue.length, result.2.ssTableCompactionFuture.isNone)) =
            some (false, 3, true) := by decide +kernel
  obtain ⟨⟨events, db⟩, run, seen⟩ := Option.map_eq_some_iff.mp played
  simp only [Prod.mk.injEq, List.isEmpty_eq_false_iff, Option.isNone_iff_eq_none] at seen
  obtain ⟨called, tables, idle⟩ := seen
  have session : Session sessionConfig transactionLog anyCompaction (opened sessionConfig transactionLog)
      events db := play_session .opened (permitted_of fun _ _ _ => trivial) run
  exact ⟨events, db, run, tables,
    compaction_keeps_up disk_empty opened_opened (by decide) (by decide) session called idle⟩

end Compactions

end ProjectDbImpl
end ProjectDb
