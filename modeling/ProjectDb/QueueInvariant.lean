import ProjectDb.Replacement
import ProjectDb.Isolation
import ProjectDb.SessionAnswers

namespace ProjectDb

/-- The elements of the queue that a compaction job reads. -/
def CompactionJob.range (job : CompactionJob) (queue : List SSTableIndex) : List SSTableIndex :=
  (queue.drop job.beginIt).take (job.endIt - job.beginIt)

/-- A queue around a window, taken apart at the positions of the window. -/
theorem Install.before_split {I : Install} {job : CompactionJob} {queue : List SSTableIndex} (before : I.before.map Prod.fst = queue)
    (begins : I.below.length = job.beginIt) (wide : job.endIt = job.beginIt + I.window.length) :
    queue.take job.beginIt = I.below.map Prod.fst ∧ job.range queue = I.window.map Prod.fst ∧
      queue.drop job.endIt = I.above.map Prod.fst := by
  have below : (I.below.map Prod.fst).length = job.beginIt := by rw [List.length_map, begins]
  have window : (I.window.map Prod.fst).length = job.endIt - job.beginIt := by
    rw [List.length_map]
    omega
  have front : (I.below.map Prod.fst ++ I.window.map Prod.fst).length = job.endIt := by
    rw [List.length_append, below, window]
    omega
  rw [← before, Install.before, List.map_append, List.map_append]
  refine ⟨?_, ?_, List.drop_left' front⟩
  · rw [List.append_assoc, List.take_left' below]
  · rw [CompactionJob.range, List.append_assoc, List.drop_left' below, List.take_left' window]

namespace ProjectDbImpl

/-- The SSTable queue and its files between two calls. -/
structure QueueInvariant (db : ProjectDbImpl) : Prop where
  empty : db.ssTableIndexQueue.queue = [] → db.ssTableIndexQueue.compactionStartIndex = 0
  start : db.ssTableIndexQueue.queue ≠ [] →
    db.ssTableIndexQueue.compactionStartIndex < db.ssTableIndexQueue.queue.length
  order : (db.ssTableIndexQueue.queue.map fun index => index.ssTableFileName.counter).Pairwise (· < ·)
  named : ∀ index ∈ db.ssTableIndexQueue.queue,
    index.ssTableFileName = genSSTableFileName index.ssTableFileName.counter
  onDisk : ∀ index ∈ db.ssTableIndexQueue.queue, (db.files.read index.ssTableFileName).isSome

/-- A compaction that is running or has finished reads what `update` marks and
erases, and none of the checks of `update` fails. -/
structure Awaited (cfg : Config) (db : ProjectDbImpl) (job : CompactionJob) : Prop where
  inside : job.endIt ≤ db.ssTableIndexQueue.queue.length
  range : job.range db.ssTableIndexQueue.queue =
    (db.ssTableIndexQueue.queue.drop db.ssTableIndexQueue.compactionStartIndex).take
      (1 + cfg.numSSTableToCompact.toNat)
  count : (job.range db.ssTableIndexQueue.queue).length = cfg.numSSTableToCompact.toNat + 1
  enough : ¬ (db.ssTableIndexQueue.queue.length : Int) - (db.ssTableIndexQueue.compactionStartIndex + 1) <
    cfg.numSSTableToCompact.toNat
  result : job.future = .running ∨ ∃ merged, job.future = .ready (.ok merged) ∧ merged ≠ []

/-- The range of the job has been erased from the queue and its files are gone,
but for those whose names the merged tables have. -/
structure Erased (db : ProjectDbImpl) (job : CompactionJob) (merged : List SSTableIndex) (t : ProjectDbImpl) :
    Prop where
  idle : t.ssTableCompactionFuture = none
  nonempty : merged ≠ []
  queue : t.ssTableIndexQueue.queue =
    db.ssTableIndexQueue.queue.take job.beginIt ++ merged ++ db.ssTableIndexQueue.queue.drop job.endIt
  start : t.ssTableIndexQueue.compactionStartIndex = job.beginIt + merged.length - 1
  reused : ∀ index ∈ merged, ∃ old ∈ job.range db.ssTableIndexQueue.queue, index.ssTableFileName = old.ssTableFileName
  gone : ∀ old ∈ job.range db.ssTableIndexQueue.queue,
    (∀ index ∈ merged, index.ssTableFileName ≠ old.ssTableFileName) → t.files.read old.ssTableFileName = none

variable {cfg : Config} {fmt : LogFormat} {permit : List SSTable → Nat → Prop} {v : View} {n : Nat}
  {start db t : ProjectDbImpl} {job : CompactionJob}

theorem Others.disturbed {s : ProjectDbImpl} (step : Others cfg permit s t) : Disturbed s t := by
  obtain ⟨kind, step, _⟩ := step
  exact step.disturbed

theorem Inv.queueInvariant (inv : Inv cfg permit v db) : QueueInvariant db := by
  have queue := inv.shelved.queue
  have element : ∀ index ∈ db.ssTableIndexQueue.queue, ∃ x ∈ v.queue, x.1 = index := fun index member => by
    rw [← queue] at member
    exact List.mem_map.mp member
  refine ⟨fun empty => ?_, fun some => ?_, ?_, fun index member => ?_, fun index member => ?_⟩
  · rcases inv.shelved.start with zero | below
    · exact zero
    · rw [← List.length_map Prod.fst, queue, empty] at below
      contradiction
  · rcases inv.shelved.start with zero | below
    · rw [zero]
      exact List.length_pos_of_ne_nil some
    · rwa [← List.length_map Prod.fst, queue] at below
  · have order := (List.pairwise_append.mp inv.flushing.order).1
    rw [View.shelf, List.map_append] at order
    rw [← queue, List.map_map]
    exact (List.pairwise_append.mp order).1
  · obtain ⟨x, inside, rfl⟩ := element index member
    exact inv.shelved.named x (List.mem_append_left _ inside)
  · obtain ⟨x, inside, rfl⟩ := element index member
    rw [(inv.shelved.holds x (List.mem_append_left _ inside)).file]
    rfl

theorem Inv.awaited (inv : Inv cfg permit v db) (small : cfg.numSSTableToCompact.toNat < 2 ^ 31)
    (launched : db.ssTableCompactionFuture = some job) : Awaited cfg db job := by
  obtain ⟨begins, ends, _, inside, state⟩ := inv.compacting job launched
  have length : v.queue.length = db.ssTableIndexQueue.queue.length := by
    rw [← inv.shelved.queue, List.length_map]
  have within := inside small
  have width : job.endIt - job.beginIt = 1 + cfg.numSSTableToCompact.toNat := by omega
  refine ⟨by omega, ?_, ?_, by omega, ?_⟩
  · rw [CompactionJob.range, width, begins]
  · simp only [CompactionJob.range, List.length_take, List.length_drop]
    omega
  · rcases state with running | ⟨I, ready, compacted, _⟩
    · exact Or.inl running
    · exact Or.inr ⟨_, ready, fun none => compacted.nonempty (List.map_eq_nil_iff.mp none)⟩

/-- The files of the window are gone but for those that the merged tables have taken over. -/
theorem Replaced.gone {I : Install} (replaced : Replaced cfg permit v n I t) (settled : v.Settled) (named : I.Named)
    {y : Indexed} (inside : y ∈ I.window) (unused : ∀ x ∈ I.installed, x.1.ssTableFileName ≠ y.1.ssTableFileName) :
    t.files.read y.1.ssTableFileName = none := by
  by_contra found
  obtain ⟨bytes, read⟩ := Option.ne_none_iff_exists'.mp found
  have isSst := named.names.sst y (by simp [Install.before, inside])
  have listed := replaced.ready.inv.shelved.listed _ isSst bytes read
  obtain ⟨x, onShelf, equal⟩ := List.mem_map.mp listed
  rw [View.shelf, settled.handed, List.append_nil] at onShelf
  by_cases merged : x ∈ I.installed
  · exact unused x merged equal
  · have beside : x ∈ I.below ++ I.above := by
      simp only [Install.after, List.mem_append] at onShelf ⊢
      tauto
    exact named.apart beside inside equal

theorem Inv.erased (inv : Inv cfg permit v db) (settled : v.Settled) (bounded : db.Bounded)
    (launched : db.ssTableCompactionFuture = some job)
    (path : Prog.Reaches (Others cfg permit) (checkSSTableCompactionFuture cfg) db (.ret false) t) :
    QueueInvariant t ∧ ∃ merged, Erased db job merged t := by
  obtain ⟨begins, ends, _⟩ := inv.compacting job launched
  cases (((inv.ready bounded).collect).reaches path).returned with
  | absent none =>
    rw [launched] at none
    contradiction
  | @replaced _ base taken I installable same replaced =>
    obtain ⟨compacted, _, named, _⟩ := installable
    have wide := compacted.wide
    have queue := replaced.ready.inv.shelved.queue
    obtain ⟨low, window, high⟩ := @Install.before_split I job db.ssTableIndexQueue.queue
      (by rw [compacted.before, inv.shelved.queue]) (by rw [compacted.start, same, begins]) (by omega)
    refine ⟨replaced.ready.inv.queueInvariant, I.installed.map Prod.fst, replaced.idle, ?_, ?_, ?_,
      fun index member => ?_, fun old member unused => ?_⟩
    · simpa [Install.installed] using compacted.nonempty
    · rw [low, high, ← queue, Install.after, List.map_append, List.map_append]
    · rw [replaced.start, compacted.start, same, begins, List.length_map, Install.installed, List.length_map]
    · obtain ⟨x, inside, rfl⟩ := List.mem_map.mp member
      obtain ⟨y, listed, equal⟩ := mem_namesOf.mp (named.firsts.subset (mem_namesOf.mpr ⟨x, inside, rfl⟩))
      rw [window]
      exact ⟨y.1, List.mem_map_of_mem listed, equal.symm⟩
    · rw [window] at member
      obtain ⟨y, inside, rfl⟩ := List.mem_map.mp member
      exact replaced.gone settled named inside fun x merged => unused x.1 (List.mem_map_of_mem merged)

/-- In a session on a directory of SSTables the queue keeps its invariant; from
the launch of a compaction until its result is taken no step changes the queue;
`update` erases the range that the job has read, and no call throws. -/
theorem queue_invariant {files : Files} {tables : List (Nat × SSTable)} {logs : List (Nat × List Byte)}
    {events : List Event} (disk : Disk files tables logs) (opened : Opened cfg fmt anyCompaction files start)
    (small : cfg.numSSTableToCompact.toNat < 2 ^ 31) (session : Session cfg fmt anyCompaction start events db) :
    QueueInvariant db ∧
      (∀ job, db.ssTableCompactionFuture = some job → Awaited cfg db job ∧ (db.Bounded → ∀ t,
        Prog.Reaches (Others cfg anyCompaction) (checkSSTableCompactionFuture cfg) db (.ret false) t →
        QueueInvariant t ∧ ∃ merged, Erased db job merged t)) ∧
      (db.Bounded → ∀ call q t, Prog.Reaches (Others cfg anyCompaction) (Call.prog cfg fmt call) db q t →
        (∀ e, q ≠ .throw e) ∧ (∀ u, Others cfg anyCompaction t u → Isolated t u) ∧
          ∀ update rest, q = .act update rest → Isolated t (update t)) := by
  obtain ⟨memory, loads⟩ := opened.loads disk
  obtain ⟨xs, _, inv⟩ := opened.on disk loads
  obtain ⟨v, now, settled, _⟩ := session.inv inv (openedView_settled xs logs memory)
  refine ⟨now.queueInvariant, fun job launched => ⟨now.awaited small launched, fun bounded t path => ?_⟩,
    fun bounded call q t path => ⟨?_, ?_, ?_⟩⟩
  · exact now.erased settled bounded launched path
  · rintro e rfl
    exact now.notThrown settled bounded path
  · exact fun u step => step.disturbed.isolated
  · rintro update rest rfl
    have meets : (Call.prog cfg fmt call).Meets (Others cfg anyCompaction) Isolated (fun _ _ => True)
        (fun _ _ => True) db := (call_meets fmt call db).restrict fun _ _ => Others.disturbed
    exact (meets.reaches path t .refl).1

/-- Four tables are written, and a call launches a compaction of all of them. -/
def launchingScript : List Move :=
  [.call (.set sampleKey oldString), .flush 0, .call (.set otherKey newString), .flush 0,
    .call (.set sampleKey newString), .flush 0, .call (.remove sampleKey), .flush 0, .call (.get sampleKey)]

theorem queue_invariant_sample : ∃ events db job,
    Session sessionConfig transactionLog anyCompaction (opened sessionConfig transactionLog) events db ∧
      db.ssTableCompactionFuture = some job ∧ Awaited sessionConfig db job := by
  have launched : ((play sessionConfig transactionLog (opened sessionConfig transactionLog) launchingScript).bind
      fun result => result.2.ssTableCompactionFuture).isSome = true := by decide +kernel
  obtain ⟨job, some⟩ := Option.isSome_iff_exists.mp launched
  obtain ⟨⟨events, db⟩, run, future⟩ := Option.bind_eq_some_iff.mp some
  have session : Session sessionConfig transactionLog anyCompaction (opened sessionConfig transactionLog)
      events db := play_session .opened (permitted_of fun _ _ _ => trivial) run
  obtain ⟨_, awaited, _⟩ := queue_invariant disk_empty opened_opened (by decide) session
  exact ⟨events, db, job, session, future, (awaited job future).1⟩

end ProjectDbImpl
end ProjectDb
