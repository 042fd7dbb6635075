import ProjectDb.JobSteps

namespace ProjectDb
namespace ProjectDbImpl

section Environment
variable (cfg : Config) (permit : List SSTable → Nat → Prop)

/-- A step of a background job; a compaction finishes only when it is permitted
for the tables of the queue and the start of its window. -/
def Others (db next : ProjectDbImpl) : Prop :=
  ∃ kind, JobStep cfg kind db next ∧ (kind = .compaction →
    ∀ xs, OnDisk db.files db.ssTableIndexQueue.queue xs →
      permit (xs.map Prod.snd) db.ssTableIndexQueue.compactionStartIndex)

/-- No condition on compactions. -/
abbrev anyCompaction : List SSTable → Nat → Prop := fun _ _ => True

/-- The invariant with room for `n` more counters. -/
structure Ready (v : View) (n : Nat) (db : ProjectDbImpl) : Prop where
  inv : Inv cfg permit v db
  sstRoom : db.ssTableFileCounterBase + n < 2 ^ 32
  txlRoom : db.transactionLogFileCounterBase + n < 2 ^ 32

end Environment

variable {cfg : Config} {permit : List SSTable → Nat → Prop} {v : View} {n : Nat} {db next : ProjectDbImpl}

theorem JobStep.bases {kind : JobKind} (step : JobStep cfg kind db next) :
    next.ssTableFileCounterBase = db.ssTableFileCounterBase := by
  cases step <;> rfl

theorem Inv.others (inv : Inv cfg permit v db) (step : Others cfg permit db next) : Inv cfg permit v next := by
  obtain ⟨kind, step, permitted⟩ := step
  exact inv.step step fun compaction => permitted compaction v.queue inv.onDisk

theorem Ready.assertion {always : ProjectDbImpl → Prop} (within : ∀ t, Ready cfg permit v n t → always t) :
    Prog.Assertion (Others cfg permit) always (Ready cfg permit v n) where
  stable db next ready moved := by
    have still := ready.inv.others moved
    obtain ⟨kind, step, _⟩ := moved
    refine ⟨still, ?_, ?_⟩
    · rw [step.bases]
      exact ready.sstRoom
    · rw [step.memory.2.1]
      exact ready.txlRoom
  within := within

/-- No compaction starts, or disappears, by itself. -/
theorem Others.idle (step : Others cfg permit db next) :
    next.ssTableCompactionFuture = none ↔ db.ssTableCompactionFuture = none := by
  obtain ⟨kind, step, _⟩ := step
  cases step with
  | tick => rfl
  | clean => rfl
  | flush => rfl
  | compaction launched => simp [launched]

/-- Where the window of the pending compaction starts, if there is one. -/
def pendingStart (db : ProjectDbImpl) : Option Nat := db.ssTableCompactionFuture.map (·.beginIt)

theorem pendingStart_none : db.pendingStart = none ↔ db.ssTableCompactionFuture = none := Option.map_eq_none_iff

theorem idle_of_pendingStart (same : next.pendingStart = db.pendingStart) :
    next.ssTableCompactionFuture = none ↔ db.ssTableCompactionFuture = none := by
  rw [← pendingStart_none, same, pendingStart_none]

/-- A compaction keeps its window. -/
theorem Others.pendingStart (step : Others cfg permit db next) : next.pendingStart = db.pendingStart := by
  obtain ⟨kind, step, _⟩ := step
  cases step with
  | tick => rfl
  | clean => rfl
  | flush => rfl
  | compaction launched => simp [ProjectDbImpl.pendingStart, launched]

def CompactionRunning (db : ProjectDbImpl) : Prop :=
  ∃ job, db.ssTableCompactionFuture = some job ∧ job.future = .running

theorem CompactionRunning.launched (running : CompactionRunning db) : db.ssTableCompactionFuture ≠ none := by
  obtain ⟨job, future, _⟩ := running
  exact future ▸ Option.some_ne_none job

theorem Others.running (step : Others cfg permit db next) (running : CompactionRunning next) : CompactionRunning db := by
  obtain ⟨kind, step, _⟩ := step
  cases step with
  | tick => exact running
  | clean => exact running
  | flush => exact running
  | compaction launched before => exact ⟨_, launched, before⟩

section Installing

/-- What holds while the compaction's result is being installed. -/
structure Taken (v : View) (n : Nat) (db : ProjectDbImpl) : Prop where
  flushing : Flushing v db
  logging : Logging v db
  consumed : ∃ job, db.ssTableCompactionFuture = some job ∧ job.future = .consumed
  sstRoom : db.ssTableFileCounterBase + n < 2 ^ 32
  txlRoom : db.transactionLogFileCounterBase + n < 2 ^ 32

theorem Taken.undisturbed (v : View) (n : Nat) : Undisturbed (Others cfg permit) (Taken v n) where
  others db next taken step := by
    obtain ⟨kind, step, _⟩ := step
    obtain ⟨job, launched, consumed⟩ := taken.consumed
    have notRunning : kind ≠ .compaction := by
      rintro rfl
      cases step with
      | compaction same running =>
        rw [launched] at same
        cases same
        rw [consumed] at running
        contradiction
    have mergeable : Mergeable db := by
      intro other same running
      rw [launched] at same
      cases same
      rw [consumed] at running
      contradiction
    obtain ⟨_, txl, queue⟩ := step.memory
    refine ⟨⟨taken.flushing.step mergeable step, taken.logging.step taken.flushing mergeable step, ?_, ?_, ?_⟩, queue, ?_⟩
    · cases step with
      | tick => exact taken.consumed
      | clean => exact taken.consumed
      | flush => exact taken.consumed
      | compaction => exact absurd rfl notRunning
    · rw [step.bases]
      exact taken.sstRoom
    · rw [txl]
      exact taken.txlRoom
    · rintro name (isSst | isMerged)
      · exact step.read taken.flushing mergeable (by rw [isSst]; decide) (by rw [isSst]; decide)
          fun compaction => absurd compaction notRunning
      · exact step.read taken.flushing mergeable (by rw [isMerged]; decide) (by rw [isMerged]; decide)
          fun compaction => absurd compaction notRunning
  install db files queue taken untouched := by
    refine ⟨?_, ?_, taken.consumed, taken.sstRoom, taken.txlRoom⟩
    · exact taken.flushing.frame ⟨rfl, rfl, rfl, rfl, rfl, rfl⟩ fun name isIp =>
        untouched name (by rw [isIp]; decide) (by rw [isIp]; decide) (by rw [isIp]; decide)
    · exact taken.logging.frame ⟨rfl, rfl, rfl, rfl, rfl, rfl⟩ fun name isLog =>
        untouched name (by rw [isLog]; decide) (by rw [isLog]; decide) (by rw [isLog]; decide)

/-- Polling the compaction finds none, finds it running, or takes a result that
is ready to be installed. -/
theorem Inv.takeCompaction (inv : Inv cfg permit v db) :
    (db.ssTableCompactionFuture = none ∧ ProjectDbImpl.takeCompaction db = .ok .absent db) ∨
      (CompactionRunning db ∧ ProjectDbImpl.takeCompaction db = .ok .pending db) ∨
      ∃ job I, db.ssTableCompactionFuture = some job ∧ cfg.numSSTableToCompact.toNat ≠ 0 ∧
        ProjectDbImpl.takeCompaction db = .ok (.done (I.merged.map Prod.snd)) (db.tookCompaction job) ∧
        Compacted cfg v db job I ∧ job.beginIt = db.ssTableIndexQueue.compactionStartIndex ∧
        permit (v.queue.map Prod.snd) job.beginIt := by
  cases future : db.ssTableCompactionFuture with
  | none => exact Or.inl ⟨rfl, takeCompaction_absent future⟩
  | some job =>
    obtain ⟨begins, _, positive, _, running | ⟨I, ready, compacted, permitted⟩⟩ := inv.compacting job future
    · exact Or.inr (Or.inl ⟨⟨job, future, running⟩, takeCompaction_running future running⟩)
    · exact Or.inr (Or.inr ⟨job, I, rfl, positive, takeCompaction_done future ready, compacted, begins, permitted⟩)

variable {job : CompactionJob} {I : Install}

theorem Compacted.named (compacted : Compacted cfg v db job I) (inv : Inv cfg permit v db) : I.Named :=
  Install.named_of_merged (compacted.before ▸ inv.onDisk.names) compacted.groups compacted.merged

/-- The installation can start. -/
theorem Compacted.begin (compacted : Compacted cfg v db job I) (ready : Ready cfg permit v n db)
    (begins : job.beginIt = db.ssTableIndexQueue.compactionStartIndex) :
    I.At db.files (Taken v n) 0 0 ⟨I.before.map Prod.fst, I.below.length⟩ (db.tookCompaction job) := by
  refine ⟨⟨?_, ?_, ⟨_, rfl, rfl⟩, ready.sstRoom, ready.txlRoom⟩, ?_, ?_⟩
  · exact ready.inv.flushing.frame ⟨rfl, rfl, rfl, rfl, rfl, rfl⟩ fun _ _ => rfl
  · exact ready.inv.logging.frame ⟨rfl, rfl, rfl, rfl, rfl, rfl⟩ fun _ _ => rfl
  · refine Install.stage_zero (fun x member => ?_) compacted.merged
    exact ready.inv.onDisk.holds x (compacted.before ▸ member)
  · change db.ssTableIndexQueue = _
    rw [compacted.before, compacted.start, begins, ready.inv.shelved.queue]

theorem Compacted.names_sublist (compacted : Compacted cfg v db job I) (named : I.Named) :
    (namesOf (I.after ++ v.handed)).Sublist (namesOf v.shelf) := by
  rw [View.shelf, ← compacted.before, namesOf_append, namesOf_append]
  refine List.Sublist.append_right ?_ _
  simp only [Install.after, Install.before, namesOf_append]
  exact (named.firsts.append_left _).append_right _

/-- The SSTable files once the compaction is installed. -/
theorem Compacted.shelved (compacted : Compacted cfg v db job I) (shelved : Shelved v db) (named : I.Named)
    (taken : Taken v n next) (stage : I.Stage db.files I.window.length I.merged.length next.files)
    (queue : next.ssTableIndexQueue = ⟨I.after.map Prod.fst, I.below.length + I.merged.length - 1⟩) :
    Shelved { v with queue := I.after } next := by
  have shelfNames := Inv.rangeNames taken.flushing shelved
  have all : I.installed.take I.merged.length = I.installed := List.take_of_length_le (by simp [Install.installed])
  have apart : ∀ x ∈ v.handed, x.1.ssTableFileName ∉ namesOf I.window := by
    intro x handed inside
    have nodup := shelfNames.nodup
    rw [View.shelf, List.map_append, ← compacted.before] at nodup
    refine (List.nodup_append.mp nodup).2.2 _ ?_ _ (List.mem_map_of_mem handed) rfl
    obtain ⟨y, member, same⟩ := mem_namesOf.mp inside
    rw [← same]
    exact List.mem_map_of_mem (by simp [Install.before, member])
  refine ⟨by rw [queue], fun x member => ?_, fun x member => ?_, fun name isSst bytes found => ?_, ?_⟩
  · rcases List.mem_append.mp member with inQueue | handed
    · exact (Install.onDisk_after named stage).holds x inQueue
    · have onShelf := List.mem_append_right v.queue handed
      exact (shelved.holds x onShelf).frame (stage.others _ (shelved.sst onShelf) (apart x handed))
  · obtain ⟨y, inside, same⟩ := mem_namesOf.mp
      ((compacted.names_sublist named).subset (mem_namesOf.mpr ⟨x, member, rfl⟩))
    have canonical := shelved.named y inside
    rw [counterOf, same] at canonical
    exact canonical
  · change name ∈ namesOf (I.after ++ v.handed)
    rw [namesOf_append, List.mem_append]
    by_cases inside : name ∈ namesOf I.window
    · by_contra unlisted
      have gone := stage.gone name inside fun listed => unlisted (Or.inl ?_)
      · rw [gone] at found
        contradiction
      · rw [List.drop_length, List.nil_append, all] at listed
        simp [Install.after, listed]
    · rw [stage.others name isSst inside] at found
      have listed := shelved.listed name isSst bytes found
      change name ∈ namesOf v.shelf at listed
      rw [View.shelf, ← compacted.before, namesOf_append, List.mem_append] at listed
      refine listed.imp_left fun before => ?_
      simp only [Install.before, Install.after, namesOf_append, List.mem_append] at before ⊢
      tauto
  · rw [queue]
    have some := List.length_pos_of_ne_nil compacted.nonempty
    refine Or.inr ?_
    simp only [Install.after, Install.installed, List.length_append, List.length_map]
    omega

/-- Installed and with its future reset, the compaction is over. -/
theorem Compacted.finish (compacted : Compacted cfg v db job I) (shelved : Shelved v db) (named : I.Named)
    (at_ : I.At db.files (Taken v n) I.window.length I.merged.length
      ⟨I.after.map Prod.fst, I.below.length + I.merged.length - 1⟩ next) :
    Inv cfg permit { v with queue := I.after } { next with ssTableCompactionFuture := none } := by
  have sublist := (compacted.names_sublist named).map FileName.counter
  simp only [namesOf, List.map_map] at sublist
  have flushing : Flushing { v with queue := I.after } next := at_.kept.flushing.shelf sublist
  have shelved := compacted.shelved shelved named at_.kept at_.stage at_.queue
  obtain ⟨names, files, order, base⟩ := at_.kept.logging
  refine ⟨flushing.frame ⟨rfl, rfl, rfl, rfl, rfl, rfl⟩ fun _ _ => rfl, ⟨names, files, order, base⟩,
    shelved.frame rfl fun _ _ => rfl, ?_⟩
  intro job launched
  contradiction

end Installing

section Check

/-- What `checkSSTableCompactionFuture` comes to when it is called in `db`: there
is no compaction, one is running, or it has been installed. -/
inductive Checked (cfg : Config) (permit : List SSTable → Nat → Prop) (v : View) (n : Nat) (db : ProjectDbImpl) :
    Bool → ProjectDbImpl → Prop
  | absent {t : ProjectDbImpl} : db.ssTableCompactionFuture = none → Ready cfg permit v n t →
      t.ssTableCompactionFuture = none → Checked cfg permit v n db false t
  | running {t : ProjectDbImpl} : CompactionRunning db → Ready cfg permit v n t → Checked cfg permit v n db true t
  | installed {t : ProjectDbImpl} {after : List Indexed} {start : Nat} : db.pendingStart = some start →
      cfg.numSSTableToCompact.toNat ≠ 0 → permit (v.queue.map Prod.snd) start →
      tablesOf after = (compactionGroups cfg (v.queue.map Prod.snd) start (cfg.numSSTableToCompact.toNat + 1)).map
        (fun group => (mergeGroup group).table) →
      Ready cfg permit { v with queue := after } n t → t.ssTableCompactionFuture = none →
      Checked cfg permit v n db false t

variable {at_call : ProjectDbImpl} {always : ProjectDbImpl → Prop}

theorem Checked.assertion (steady : ∀ queue t, Ready cfg permit { v with queue := queue } n t → always t)
    (running : Bool) : Prog.Assertion (Others cfg permit) always (Checked cfg permit v n at_call running) where
  stable s t checked step := by
    have stable (queue : List Indexed) := (Ready.assertion (steady queue)).stable
    cases checked with
    | absent none ready idle => exact .absent none (stable v.queue ready step) (step.idle.mpr idle)
    | running some ready => exact .running some (stable v.queue ready step)
    | installed some positive permitted tables ready idle =>
      exact .installed some positive permitted tables (stable _ ready step) (step.idle.mpr idle)
  within t checked := by
    cases checked with
    | absent _ ready => exact steady v.queue t ready
    | running _ ready => exact steady v.queue t ready
    | installed _ _ _ _ ready => exact steady _ t ready

/-- A compaction of the view's queue that is about to be installed. -/
structure Installable (cfg : Config) (permit : List SSTable → Nat → Prop) (v : View) (n : Nat) (base : ProjectDbImpl)
    (job : CompactionJob) (I : Install) : Prop where
  compacted : Compacted cfg v base job I
  shelved : Shelved v base
  named : I.Named
  positive : cfg.numSSTableToCompact.toNat ≠ 0
  permitted : permit (v.queue.map Prod.snd) job.beginIt

/-- The window of a compaction has been replaced by the merged tables. -/
structure Replaced (cfg : Config) (permit : List SSTable → Nat → Prop) (v : View) (n : Nat) (I : Install)
    (t : ProjectDbImpl) : Prop where
  ready : Ready cfg permit { v with queue := I.after } n t
  idle : t.ssTableCompactionFuture = none
  start : t.ssTableIndexQueue.compactionStartIndex = I.below.length + I.merged.length - 1

theorem Replaced.assertion (steady : ∀ t, Ready cfg permit { v with queue := I.after } n t → always t) :
    Prog.Assertion (Others cfg permit) always (Replaced cfg permit v n I) where
  stable s t replaced step := by
    refine ⟨(Ready.assertion steady).stable replaced.ready step, step.idle.mpr replaced.idle, ?_⟩
    obtain ⟨kind, step, _⟩ := step
    rw [step.memory.2.2, replaced.start]
  within t replaced := steady t replaced.ready

/-- What holds after the poll of the compaction. -/
def AfterPoll (cfg : Config) (permit : List SSTable → Nat → Prop) (v : View) (n : Nat) (at_call : ProjectDbImpl) :
    Polled (List SSTableIndex) → ProjectDbImpl → Prop
  | .absent, t => Checked cfg permit v n at_call false t
  | .pending, t => Checked cfg permit v n at_call true t
  | .done merged, t => ∃ base job I, (at_call.pendingStart = some job.beginIt ∧
      Installable cfg permit v n base job I ∧ merged = I.merged.map Prod.snd) ∧
      I.At base.files (Taken v n) 0 0 ⟨I.before.map Prod.fst, I.below.length⟩ t

section Steady
variable (taking : cfg.numSSTableToCompact.toNat ≠ 0 → ∀ t, Taken v n t → always t)
include taking

theorem Installable.assertion {base : ProjectDbImpl} (installable : Installable cfg permit v n base job I) (k i : Nat)
    (queue : SSTableIndexQueue) :
    Prog.Assertion (Others cfg permit) always (I.At base.files (Taken v n) k i queue) :=
  (Install.At.assertion installable.named (Taken.undisturbed v n) k i queue).weaken fun t during =>
    taking installable.positive t during.1

variable (steady : ∀ queue t, Ready cfg permit { v with queue := queue } n t → always t)
include steady

theorem AfterPoll.assertion (polled : Polled (List SSTableIndex)) :
    Prog.Assertion (Others cfg permit) always (AfterPoll cfg permit v n at_call polled) := by
  cases polled with
  | absent => exact Checked.assertion steady false
  | pending => exact Checked.assertion steady true
  | done merged =>
    refine ⟨?_, ?_⟩
    · rintro s t ⟨base, job, I, known, at_⟩ step
      exact ⟨base, job, I, known, (known.2.1.assertion taking _ _ _).stable at_ step⟩
    · rintro s ⟨base, job, I, known, at_⟩
      exact taking known.2.1.positive s at_.kept

/-- `update` and the reset of the future replace the window by the merged tables. -/
theorem Installable.replace {base : ProjectDbImpl} (installable : Installable cfg permit v n base job I)
    (at_ : I.At base.files (Taken v n) 0 0 ⟨I.before.map Prod.fst, I.below.length⟩ db) :
    (SSTableIndexQueue.update cfg (I.merged.map Prod.snd) >>= fun _ =>
        Prog.atomic (DbM.change fun db => { db with ssTableCompactionFuture := none }) >>= fun _ =>
          (pure false : DbProg Bool)).Safe (Others cfg permit) always (fun _ => False)
      (fun running t => running = false ∧ Replaced cfg permit v n I t) db := by
  obtain ⟨compacted, shelved, named, positive, _⟩ := id installable
  have replaced : Prog.Assertion (Others cfg permit) always (Replaced cfg permit v n I) :=
    Replaced.assertion (steady I.after)
  refine Prog.Safe.bind (Prog.Safe.weaken (Install.update_safe named (Taken.undisturbed v n) compacted.wide
    positive compacted.nonempty at_) fun t during => taking positive t during.1) fun _ t done => ?_
  refine Prog.Safe.bind (Prog.Safe.atomic (Q := fun _ => Replaced cfg permit v n I)
    (installable.assertion taking _ _ _) (fun _ => replaced) done ?_) ?_
  · intro u now
    have ended : Inv cfg permit _ _ := compacted.finish shelved named now
    exact ⟨(), { u with ssTableCompactionFuture := none }, rfl, ⟨ended, now.kept.sstRoom, now.kept.txlRoom⟩, rfl,
      congrArg (·.compactionStartIndex) now.queue⟩
  · intro _ u done
    exact Prog.Safe.ret (replaced.and_pure _) ⟨rfl, done⟩

theorem Installable.install {base : ProjectDbImpl} (installable : Installable cfg permit v n base job I)
    (some : at_call.pendingStart = some job.beginIt)
    (at_ : I.At base.files (Taken v n) 0 0 ⟨I.before.map Prod.fst, I.below.length⟩ db) :
    (SSTableIndexQueue.update cfg (I.merged.map Prod.snd) >>= fun _ =>
        Prog.atomic (DbM.change fun db => { db with ssTableCompactionFuture := none }) >>= fun _ =>
          (pure false : DbProg Bool)).Safe (Others cfg permit) always (fun _ => False)
      (Checked cfg permit v n at_call) db := by
  refine (installable.replace taking steady at_).mono fun running t ended => ?_
  obtain ⟨rfl, ready, idle, _⟩ := ended
  obtain ⟨compacted, _, _, positive, permitted⟩ := installable
  refine .installed some positive permitted ?_ ready idle
  rw [Install.tables_after compacted.groups, compacted.before, compacted.start, compacted.wide]

/-- The check for a finished compaction, at any time. -/
theorem Ready.checkSSTableCompactionFuture (ready : Ready cfg permit v n db) :
    (ProjectDbImpl.checkSSTableCompactionFuture cfg).Safe (Others cfg permit) always (fun _ => False)
      (Checked cfg permit v n db) db := by
  have before : Prog.Assertion (Others cfg permit) always fun t =>
      Ready cfg permit v n t ∧ t.pendingStart = db.pendingStart ∧ (CompactionRunning t → CompactionRunning db) :=
    (Ready.assertion (steady v.queue)).and fun s t same step =>
      ⟨step.pendingStart.trans same.1, fun running => same.2 (step.running running)⟩
  refine Prog.Safe.bind (Prog.Safe.atomic (Q := AfterPoll cfg permit v n db)
    before (AfterPoll.assertion taking steady) ⟨ready, rfl, id⟩ ?_) ?_
  · rintro t ⟨now, same, earlier⟩
    rcases now.inv.takeCompaction with ⟨idle, run⟩ | ⟨running, run⟩ |
      ⟨job, I, launched, positive, run, compacted, begins, permitted⟩
    · exact ⟨_, _, run, .absent ((idle_of_pendingStart same).mp idle) now idle⟩
    · exact ⟨_, _, run, .running (earlier running) now⟩
    · refine ⟨_, _, run, t, job, I, ⟨?_, ⟨compacted, now.inv.shelved, compacted.named now.inv, positive,
        permitted⟩, rfl⟩, compacted.begin now begins⟩
      rw [← same, ProjectDbImpl.pendingStart, launched]
      rfl
  · intro polled t after
    cases polled with
    | absent => exact Prog.Safe.ret (Checked.assertion steady false) after
    | pending => exact Prog.Safe.ret (Checked.assertion steady true) after
    | done merged =>
      obtain ⟨base, job, I, ⟨some, installable, rfl⟩, at_⟩ := after
      exact installable.install taking steady some at_

end Steady
end Check
end ProjectDbImpl
end ProjectDb
