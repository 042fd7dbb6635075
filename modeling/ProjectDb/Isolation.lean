import ProjectDb.Compaction
import ProjectDb.Database
import ProjectDb.Foundation.Guarantee

namespace ProjectDb

/-- An index but for the stream that seeking keeps open. -/
def SSTableIndex.closed (index : SSTableIndex) : SSTableIndex := { index with ifs := none }

theorem SSTableIndex.seek_closed (index : SSTableIndex) (keepSSTableFileOpen : Bool) (files : Files) (key : Key) :
    ((SSTableIndex.seek keepSSTableFileOpen files key).left index).closed = index.closed := by
  have opened : (index.openKept keepSSTableFileOpen files).closed = index.closed := by
    unfold openKept
    split_ifs <;> rfl
  unfold EStateM.left seek
  dsimp only
  cases (index.openKept keepSSTableFileOpen files).getPotentialBlockPos key with
  | none => exact opened
  | some block =>
    dsimp only
    split_ifs
    · cases deserializeRange block.1 block.2 _ <;> exact opened
    · cases deserializeRange block.1 block.2 _ <;> exact opened

namespace ProjectDbImpl

/-- A step of anything but the calling thread when every operation may fail:
time passes, the files change, a running job ends with a value or an exception. -/
inductive Disturbed : ProjectDbImpl → ProjectDbImpl → Prop
  | files {db : ProjectDbImpl} (files : Files) (now : UInt64) : Disturbed db { db with files := files, now := now }
  | flush {db : ProjectDbImpl} {before after : List FlushJob} {job : FlushJob} (files : Files)
      (result : Except Exn SSTableIndex) (split : db.flushToDiskFutures = before ++ job :: after)
      (running : job.future = .running) :
      Disturbed db { db with
        files := files
        flushToDiskFutures := before ++ { job with future := .ready result } :: after }
  | compaction {db : ProjectDbImpl} {job : CompactionJob} (files : Files) (result : Except Exn (List SSTableIndex))
      (launched : db.ssTableCompactionFuture = some job) (running : job.future = .running) :
      Disturbed db { db with
        files := files
        ssTableCompactionFuture := some { job with future := .ready result } }

variable {cfg : Config} {db s t : ProjectDbImpl}

/-- The jobs whose file operations succeed are no more than a disturbance. -/
theorem JobStep.disturbed {kind : JobKind} (step : JobStep cfg kind s t) : Disturbed s t := by
  cases step with
  | tick => exact .files s.files _
  | clean => exact .files _ s.now
  | flush split running => exact .flush _ (.ok _) split running
  | compaction launched running => exact .compaction _ (.ok _) launched running

/-- The SSTable queue but for open streams, and where compaction starts. -/
def listed (db : ProjectDbImpl) : List SSTableIndex × Nat :=
  (db.ssTableIndexQueue.queue.map (·.closed), db.ssTableIndexQueue.compactionStartIndex)

/-- From the launch of a compaction until its result is taken, a step changes
neither the queue nor the range of the job. -/
def Isolated (s t : ProjectDbImpl) : Prop :=
  ∀ job, s.ssTableCompactionFuture = some job → job.future ≠ .consumed →
    t.listed = s.listed ∧ ∃ future, t.ssTableCompactionFuture = some { job with future := future }

/-- The part of the state that an isolated compaction depends on. -/
def compactionPart (db : ProjectDbImpl) : (List SSTableIndex × Nat) × Option CompactionJob :=
  (db.listed, db.ssTableCompactionFuture)

theorem Isolated.of_same (same : t.compactionPart = s.compactionPart) : Isolated s t := by
  intro job launched _
  obtain ⟨queue, future⟩ := Prod.mk.inj same
  exact ⟨queue, job.future, future.trans launched⟩

theorem Isolated.of_absent (idle : s.ssTableCompactionFuture = none) : Isolated s t := by
  intro job launched
  rw [idle] at launched
  contradiction

/-- The result of the compaction has been taken and its future is still there. -/
def CompactionTaken (db : ProjectDbImpl) : Prop :=
  ∃ job, db.ssTableCompactionFuture = some job ∧ job.future = .consumed

theorem not_compactionTaken (idle : db.ssTableCompactionFuture.isNone = true) : ¬ db.CompactionTaken := by
  rintro ⟨job, taken, _⟩
  rw [taken] at idle
  contradiction

theorem Isolated.of_taken (taken : s.CompactionTaken) : Isolated s t := by
  intro job launched notTaken
  obtain ⟨other, same, consumed⟩ := taken
  rw [launched] at same
  cases same
  contradiction

theorem Disturbed.isolated (step : Disturbed s t) : Isolated s t := by
  cases step with
  | files => exact .of_same rfl
  | flush => exact .of_same rfl
  | compaction files result launched running =>
    intro job same _
    rw [launched] at same
    cases same
    exact ⟨rfl, _, rfl⟩

section Stable

theorem CompactionTaken.stable : Prog.Stable Disturbed CompactionTaken := by
  rintro s t ⟨job, launched, consumed⟩ step
  cases step with
  | files => exact ⟨job, launched, consumed⟩
  | flush => exact ⟨job, launched, consumed⟩
  | compaction files result other running =>
    rw [launched] at other
    cases other
    rw [consumed] at running
    contradiction

theorem idle_stable : Prog.Stable Disturbed fun db => db.ssTableCompactionFuture = none := by
  intro s t idle step
  cases step with
  | files => exact idle
  | flush => exact idle
  | compaction files result launched =>
    rw [idle] at launched
    contradiction

/-- The result of the oldest flush job has been taken and its future is still
there. -/
def FlushTaken (db : ProjectDbImpl) : Prop :=
  ∃ job rest, db.flushToDiskFutures = job :: rest ∧ job.future = .consumed

theorem FlushTaken.stable : Prog.Stable Disturbed FlushTaken := by
  rintro s t ⟨job, rest, front, consumed⟩ step
  cases step with
  | files => exact ⟨job, rest, front, consumed⟩
  | compaction => exact ⟨job, rest, front, consumed⟩
  | @flush before after other files result split running =>
    cases before with
    | nil =>
      rw [front] at split
      cases split
      rw [consumed] at running
      contradiction
    | cons first before =>
      rw [front] at split
      cases split
      exact ⟨job, _, rfl, consumed⟩

/-- What a check of the futures that has thrown leaves behind. -/
def Wedged (db : ProjectDbImpl) : Prop :=
  db.CompactionTaken ∨ db.ssTableCompactionFuture = none ∧ db.FlushTaken

theorem Wedged.stable : Prog.Stable Disturbed Wedged := by
  rintro s t (taken | ⟨idle, taken⟩) step
  · exact Or.inl (CompactionTaken.stable taken step)
  · exact Or.inr ⟨idle_stable idle step, FlushTaken.stable taken step⟩

end Stable

section Check

/-- What the poll of the compaction leaves. -/
def PolledCompaction : Polled (List SSTableIndex) → ProjectDbImpl → Prop
  | .absent, t => t.ssTableCompactionFuture = none
  | .pending, _ => True
  | .done _, t => t.CompactionTaken

theorem PolledCompaction.stable (polled : Polled (List SSTableIndex)) :
    Prog.Stable Disturbed (PolledCompaction polled) := by
  cases polled with
  | absent => exact idle_stable
  | pending => exact fun _ _ _ _ => trivial
  | done _ => exact CompactionTaken.stable

theorem Isolated.of_took {job : CompactionJob} (launched : s.ssTableCompactionFuture = some job) :
    Isolated s (s.tookCompaction job) := by
  intro other same _
  rw [launched] at same
  cases same
  exact ⟨rfl, _, rfl⟩

theorem takeCompaction_effect (s : ProjectDbImpl) :
    Isolated s (takeCompaction.left s) ∧ (takeCompaction s).EndsIn PolledCompaction fun _ => CompactionTaken := by
  unfold EStateM.left
  cases launched : s.ssTableCompactionFuture with
  | none =>
    rw [takeCompaction_absent launched]
    exact ⟨.of_same rfl, launched⟩
  | some job =>
    cases future : job.future with
    | running =>
      rw [takeCompaction_running launched future]
      exact ⟨.of_same rfl, trivial⟩
    | consumed =>
      rw [takeCompaction_consumed launched future]
      exact ⟨.of_same rfl, job, launched, future⟩
    | ready result =>
      cases result with
      | ok merged =>
        rw [takeCompaction_done launched future]
        exact ⟨.of_took launched, _, rfl, rfl⟩
      | error e =>
        rw [takeCompaction_failed launched future]
        exact ⟨.of_took launched, _, rfl, rfl⟩

/-- The result is being installed: only the queue and the files change. -/
theorem installing {α : Type} {f : DbM α} (future : ∀ s, (f.left s).ssTableCompactionFuture = s.ssTableCompactionFuture)
    (taken : s.CompactionTaken) :
    (Prog.atomic f).Meets Disturbed Isolated (fun _ => CompactionTaken) (fun _ => CompactionTaken) s := by
  refine Prog.Meets.atomic CompactionTaken.stable (fun _ => CompactionTaken.stable)
    (fun _ => CompactionTaken.stable) taken fun t now => ⟨.of_taken now, ?_⟩
  obtain ⟨job, launched, consumed⟩ := now
  exact EStateM.endsIn_left.mpr ⟨job, (future t).trans launched, consumed⟩

/-- Nothing but the directory is affected by an operation on it. -/
theorem file_left {α β : Type} (op : FileM α) (part : ProjectDbImpl → β) (s : ProjectDbImpl)
    (framed : ∀ files, part { s with files := files } = part s) : part ((DbM.file op).left s) = part s := by
  unfold EStateM.left DbM.file
  cases op s.files with
  | ok a files => exact framed files
  | error e files => exact framed files

theorem markCompacted_meets (range : List SSTableIndex) (taken : s.CompactionTaken) :
    (SSTableIndexQueue.markCompacted range).Meets Disturbed Isolated (fun _ => CompactionTaken)
      (fun _ => CompactionTaken) s := by
  induction range generalizing s with
  | nil => exact Prog.Meets.ret (Q := fun _ => CompactionTaken) CompactionTaken.stable taken
  | cons index rest ih =>
    refine (installing (fun t => ?_) taken).bind fun _ t now => ih now
    exact file_left _ (fun db => db.ssTableCompactionFuture) t fun _ => rfl

theorem renameMerged_meets (merged : List SSTableIndex) (taken : s.CompactionTaken) :
    (SSTableIndexQueue.renameMerged merged).Meets Disturbed Isolated (fun _ => CompactionTaken)
      (fun _ => CompactionTaken) s := by
  induction merged generalizing s with
  | nil => exact Prog.Meets.ret (Q := fun _ => CompactionTaken) CompactionTaken.stable taken
  | cons index rest ih =>
    refine (installing (fun t => ?_) taken).bind fun _ t now => (ih now).bind fun _ u later => ?_
    · exact file_left _ (fun db => db.ssTableCompactionFuture) t fun _ => rfl
    · exact Prog.Meets.ret (Q := fun _ => CompactionTaken) CompactionTaken.stable later

theorem update_meets (merged : List SSTableIndex) (taken : s.CompactionTaken) :
    (SSTableIndexQueue.update cfg merged).Meets Disturbed Isolated (fun _ => CompactionTaken)
      (fun _ => CompactionTaken) s := by
  have stable : ∀ _ : Unit, Prog.Stable Disturbed CompactionTaken := fun _ => CompactionTaken.stable
  refine (Prog.Meets.read (fun t => .of_same rfl) CompactionTaken.stable (fun _ => CompactionTaken.stable) taken
    fun _ now => now).bind fun self t now => ?_
  dsimp only
  split_ifs
  · exact Prog.Meets.throw (T := fun _ => CompactionTaken) CompactionTaken.stable now
  · exact Prog.Meets.throw (T := fun _ => CompactionTaken) CompactionTaken.stable now
  · exact Prog.Meets.throw (T := fun _ => CompactionTaken) CompactionTaken.stable now
  · refine (markCompacted_meets _ now).bind fun _ t now => ?_
    refine (installing (fun _ => rfl) now).bind fun _ t now => ?_
    refine (renameMerged_meets _ now).bind fun renamed t now => ?_
    exact installing (fun _ => rfl) now

/-- The check for a finished compaction: when it throws, the result has been
taken and the future stays behind. -/
theorem checkSSTableCompactionFuture_meets (s : ProjectDbImpl) :
    (checkSSTableCompactionFuture cfg).Meets Disturbed Isolated
      (fun running t => running = false → t.ssTableCompactionFuture = none) (fun _ => CompactionTaken) s := by
  have after (running : Bool) : Prog.Stable Disturbed fun t => running = false → t.ssTableCompactionFuture = none :=
    fun _ _ idle step ended => idle_stable (idle ended) step
  refine (Prog.Meets.atomic (P := fun _ => True) (fun _ _ _ _ => trivial) PolledCompaction.stable
    (fun _ => CompactionTaken.stable) trivial fun t _ => takeCompaction_effect t).bind fun polled t now => ?_
  cases polled with
  | absent => exact Prog.Meets.ret (after false) fun _ => now
  | pending => exact Prog.Meets.ret (after true) fun ended => by contradiction
  | done merged =>
    refine (update_meets merged now).bind fun _ u taken => ?_
    refine Prog.Meets.bind (Prog.Meets.atomic CompactionTaken.stable (fun _ => idle_stable)
      (fun _ => CompactionTaken.stable) taken fun x now => ⟨.of_taken now, rfl⟩) fun _ x idle => ?_
    exact Prog.Meets.ret (after false) fun _ => idle

end Check

section Drain

/-- What the poll of the oldest flush leaves. -/
def PolledFlush : Polled SSTableIndex → ProjectDbImpl → Prop
  | .done _, t => t.ssTableCompactionFuture = none ∧ t.FlushTaken
  | _, t => t.ssTableCompactionFuture = none

theorem PolledFlush.stable (polled : Polled SSTableIndex) : Prog.Stable Disturbed (PolledFlush polled) := by
  cases polled with
  | absent => exact idle_stable
  | pending => exact idle_stable
  | done _ => exact idle_stable.and FlushTaken.stable

theorem takeFlush_effect (idle : s.ssTableCompactionFuture = none) :
    (takeFlush s).EndsIn PolledFlush fun _ t => t.ssTableCompactionFuture = none ∧ t.FlushTaken := by
  cases futures : s.flushToDiskFutures with
  | nil =>
    rw [takeFlush_absent futures]
    exact idle
  | cons job rest =>
    cases future : job.future with
    | running =>
      rw [takeFlush_running futures future]
      exact idle
    | consumed =>
      rw [takeFlush_consumed futures future]
      exact ⟨idle, job, rest, futures, future⟩
    | ready result =>
      cases result with
      | error e =>
        rw [takeFlush_failed futures future]
        exact ⟨idle, _, rest, rfl, rfl⟩
      | ok index =>
        rw [takeFlush_done futures future]
        cases removeExtAndRename index.ssTableFileName s.files with
        | ok name files => exact ⟨idle, _, rest, rfl, rfl⟩
        | error e files => exact ⟨idle, _, rest, rfl, rfl⟩

/-- The hand-over erases the future last of all. -/
theorem handOver_effect (index : SSTableIndex) (idle : s.ssTableCompactionFuture = none) (taken : s.FlushTaken) :
    (handOver index s).EndsIn (fun _ t => t.ssTableCompactionFuture = none)
      fun _ t => t.ssTableCompactionFuture = none ∧ t.FlushTaken := by
  cases queue : s.memTableQueue with
  | nil =>
    simp only [handOver, SSTableIndexQueue.insert, MemTableQueue.pop, DbM.change, DbM.current, bind, EStateM.bind, queue]
    exact ⟨idle, taken⟩
  | cons front later =>
    simp only [handOver, SSTableIndexQueue.insert, MemTableQueue.pop, DbM.change, DbM.current, DbM.assign, DbM.file,
      bind, EStateM.bind, queue]
    cases markFileAsDeprecated front.2.transactionLogFileName s.files with
    | ok _ files => exact idle
    | error e files => exact ⟨idle, taken⟩

theorem pass_meets (idle : s.ssTableCompactionFuture = none) :
    pass.Meets Disturbed Isolated (fun _ t => t.ssTableCompactionFuture = none)
      (fun _ t => t.ssTableCompactionFuture = none ∧ t.FlushTaken) s := by
  refine Prog.Meets.bind (Prog.Meets.atomic idle_stable PolledFlush.stable
    (fun _ => idle_stable.and FlushTaken.stable) idle fun t now => ⟨.of_absent now, takeFlush_effect now⟩)
    fun polled t now => ?_
  cases polled with
  | absent => exact Prog.Meets.ret idle_stable now
  | pending => exact Prog.Meets.ret idle_stable now
  | done index =>
    refine Prog.Meets.bind (Prog.Meets.atomic (idle_stable.and FlushTaken.stable) (fun _ => idle_stable)
      (fun _ => idle_stable.and FlushTaken.stable) now fun u taken => ⟨.of_absent taken.1, ?_⟩) fun _ u idle => ?_
    · exact handOver_effect index taken.1 taken.2
    · exact Prog.Meets.ret idle_stable idle

theorem drain_meets (futures : Nat) (idle : s.ssTableCompactionFuture = none) :
    (drain futures).Meets Disturbed Isolated (fun _ t => t.ssTableCompactionFuture = none)
      (fun _ t => t.ssTableCompactionFuture = none ∧ t.FlushTaken) s := by
  induction futures generalizing s with
  | zero => exact Prog.Meets.ret idle_stable idle
  | succ futures ih =>
    refine (pass_meets idle).bind fun handedOver t now => ?_
    cases handedOver with
    | true => exact ih now
    | false => exact Prog.Meets.ret idle_stable now

theorem checkFlushToDiskFutures_meets (idle : s.ssTableCompactionFuture = none) :
    (checkFlushToDiskFutures cfg).Meets Disturbed Isolated (fun _ _ => True)
      (fun _ t => t.ssTableCompactionFuture = none ∧ t.FlushTaken) s := by
  refine (Prog.Meets.read (fun t => .of_same rfl) idle_stable (fun _ => idle_stable) idle
    fun _ now => now).bind fun futures t now => (drain_meets futures now).bind fun _ u still => ?_
  refine Prog.Meets.atomic idle_stable (fun _ _ _ _ _ => trivial) (fun _ => idle_stable.and FlushTaken.stable) still
    fun x now => ⟨.of_absent now, ?_⟩
  rcases tryLaunchCompaction_eq cfg x with none | ⟨_, some⟩
  · simp only [launchCompaction, bind, EStateM.bind, none]
    trivial
  · simp only [launchCompaction, bind, EStateM.bind, some]
    trivial

/-- When a check of the futures throws, a future whose result has been taken
stays in its place. -/
theorem checkFutures_meets (s : ProjectDbImpl) :
    (checkFutures cfg).Meets Disturbed Isolated (fun _ _ => True) (fun _ => Wedged) s := by
  refine ((checkSSTableCompactionFuture_meets s).mono (fun _ _ holds => holds) fun _ _ => Or.inl).bind
    fun running t ended => ?_
  cases running with
  | true => exact Prog.Meets.ret (fun _ _ _ _ => trivial) trivial
  | false => exact (checkFlushToDiskFutures_meets (ended rfl)).mono (fun _ _ holds => holds) fun _ _ => Or.inr

end Drain

section Calls

/-- Looking a key up opens streams and changes nothing else of the queue. -/
theorem getIn_closed (cfg : Config) (files : Files) (key : Key) (queue : List SSTableIndex) :
    (SSTableIndexQueue.getIn cfg files key queue).EndsIn (fun _ after => after.map (·.closed) = queue.map (·.closed))
      fun _ after => after.map (·.closed) = queue.map (·.closed) := by
  induction queue with
  | nil => rfl
  | cons index newer ih =>
    unfold SSTableIndexQueue.getIn
    cases run : SSTableIndexQueue.getIn cfg files key newer with
    | error e after =>
      rw [run] at ih
      exact congrArg (index.closed :: ·) ih
    | ok answer after =>
      rw [run] at ih
      cases answer with
      | some value => exact congrArg (index.closed :: ·) ih
      | none =>
        have same := index.seek_closed cfg.keepSSTableFileOpen files key
        unfold EStateM.left at same
        cases sought : index.seek cfg.keepSSTableFileOpen files key with
        | ok answer opened =>
          rw [sought] at same
          exact congrArg₂ (· :: ·) same ih
        | error e opened =>
          rw [sought] at same
          exact congrArg₂ (· :: ·) same ih

theorem get_closed (cfg : Config) (key : StdString) (s : ProjectDbImpl) : ∃ queue : List SSTableIndex,
    queue.map (·.closed) = s.ssTableIndexQueue.queue.map (·.closed) ∧
      (SSTableIndexQueue.get cfg key).left s =
        { s with ssTableIndexQueue := { s.ssTableIndexQueue with queue := queue } } := by
  have same := getIn_closed cfg s.files ⟨key⟩ s.ssTableIndexQueue.queue
  unfold EStateM.left SSTableIndexQueue.get
  cases run : SSTableIndexQueue.getIn cfg s.files ⟨key⟩ s.ssTableIndexQueue.queue with
  | ok answer queue =>
    rw [run] at same
    exact ⟨queue, same, rfl⟩
  | error e queue =>
    rw [run] at same
    exact ⟨queue, same, rfl⟩

theorem get_part (key : StdString) (s : ProjectDbImpl) :
    ((SSTableIndexQueue.get cfg key).left s).compactionPart = s.compactionPart := by
  obtain ⟨queue, same, opened⟩ := get_closed cfg key s
  rw [opened, compactionPart, listed, same]
  rfl

theorem find_part (key : StdString) (s : ProjectDbImpl) :
    ((find cfg key).left s).compactionPart = s.compactionPart := by
  unfold find
  refine EStateM.left_bind_same rfl fun db t run => ?_
  cases MemTableQueue.get db key with
  | some value => rfl
  | none =>
    refine EStateM.left_bind_same (get_part key t) fun answer u _ => ?_
    cases answer <;> rfl

theorem emplaceNew_part (s : ProjectDbImpl) :
    (MemTableQueue.emplaceNew.left s).compactionPart = s.compactionPart := by
  refine EStateM.left_bind_same rfl fun memTable t _ => EStateM.left_bind_same ?_ fun writter u _ => rfl
  refine EStateM.left_bind_same rfl fun db u run => ?_
  cases run
  refine EStateM.left_bind_same rfl fun _ u _ => EStateM.left_bind_same ?_ fun _ _ _ => rfl
  exact file_left _ compactionPart u fun _ => rfl

theorem prepare_part (s : ProjectDbImpl) : (MemTableQueue.prepare.left s).compactionPart = s.compactionPart := by
  refine EStateM.left_bind_same rfl fun db t _ => ?_
  split_ifs
  · exact emplaceNew_part t
  · rfl

theorem append_part (fmt : LogFormat) (op : Operation) (s : ProjectDbImpl) :
    ((MemTableQueue.append fmt op).left s).compactionPart = s.compactionPart := by
  refine EStateM.left_bind_same rfl fun db t _ => ?_
  cases db.memTableQueue.getLast? with
  | none => rfl
  | some last =>
    refine EStateM.left_bind_same ?_ fun _ u _ => rfl
    exact file_left _ compactionPart t fun _ => rfl

theorem launchFlush_part (s : ProjectDbImpl) : ((launchFlush cfg).left s).compactionPart = s.compactionPart := by
  refine EStateM.left_bind_same (EStateM.left_bind_same rfl fun db t _ => ?_) fun job t _ => ?_
  · cases db.memTableQueue.getLast? with
    | none => rfl
    | some last =>
      dsimp only
      split_ifs
      · exact EStateM.left_bind_same (emplaceNew_part t) fun _ u _ => EStateM.left_bind_same rfl fun _ _ _ => rfl
      · rfl
  · cases job <;> rfl

/-- An action of a call that leaves the SSTables and the compaction alone. -/
theorem aside {α : Type} {f : DbM α} (same : ∀ s, (f.left s).compactionPart = s.compactionPart) :
    (Prog.atomic f).Meets Disturbed Isolated (fun _ _ => True) (fun _ _ => True) s := by
  refine Prog.Meets.atomic (P := fun _ => True) (fun _ _ _ _ => trivial) (fun _ _ _ _ _ => trivial)
    (fun _ _ _ _ _ => trivial) trivial fun t _ => ⟨.of_same (same t), EStateM.endsIn_left.mpr trivial⟩

theorem write_meets (fmt : LogFormat) (op : Operation) (s : ProjectDbImpl) :
    (write cfg fmt op).Meets Disturbed Isolated (fun _ _ => True) (fun _ _ => True) s := by
  refine ((checkFutures_meets s).mono (fun _ _ holds => holds) fun _ _ _ => trivial).bind fun _ t _ => ?_
  refine ((aside prepare_part).bind fun _ u _ => aside (append_part fmt op)).bind fun _ u _ => ?_
  exact aside launchFlush_part

/-- Every action of every call isolates a compaction that is on its way. -/
theorem call_meets (fmt : LogFormat) (call : Call) (s : ProjectDbImpl) :
    (call.prog cfg fmt).Meets Disturbed Isolated (fun _ _ => True) (fun _ _ => True) s := by
  have silent : ∀ t : ProjectDbImpl, (pure none : DbProg (Option StdString)).Meets Disturbed Isolated
      (fun _ _ => True) (fun _ _ => True) t := fun t => Prog.Meets.ret (fun _ _ _ _ => trivial) trivial
  cases call with
  | get key =>
    refine ((checkFutures_meets s).mono (fun _ _ holds => holds) fun _ _ _ => trivial).bind fun _ t _ => ?_
    exact aside (find_part key)
  | set key value => exact (write_meets fmt (.set key value) s).bind fun _ t _ => silent t
  | remove key => exact (write_meets fmt (.remove key) s).bind fun _ t _ => silent t

end Calls

end ProjectDbImpl
end ProjectDb
