import ProjectDb.Invariant

namespace ProjectDb
namespace ProjectDbImpl

variable {cfg : Config} {permit : List SSTable → Nat → Prop} {v : View} {db next : ProjectDbImpl} {kind : JobKind}

/-- A running compaction job reads tables that are on disk. -/
def Mergeable (db : ProjectDbImpl) : Prop :=
  ∀ job, db.ssTableCompactionFuture = some job → job.future = .running →
    job.beginIt ≤ job.endIt ∧ ∃ xs, OnDisk db.files db.ssTableIndexQueue.queue xs

theorem Inv.mergeable (inv : Inv cfg permit v db) : Mergeable db := by
  intro job launched _
  obtain ⟨_, ends, _⟩ := inv.compacting job launched
  exact ⟨by omega, v.queue, inv.onDisk⟩

/-- The running job of a flush step is one that is pending. -/
theorem Flushing.running (flushing : Flushing v db) {before after : List FlushJob} {job : FlushJob}
    (split : db.flushToDiskFutures = before ++ job :: after) (running : job.future = .running) :
    v.taken ≤ before.length ∧ db.pendingJobs v = before.drop v.taken ++ job :: after := by
  have early : v.taken ≤ before.length := by
    by_contra late
    have member : job ∈ db.flushToDiskFutures.take v.taken := by
      rw [split, List.take_append]
      obtain ⟨n, more⟩ : ∃ n, v.taken - before.length = n + 1 := ⟨v.taken - before.length - 1, by omega⟩
      simp [more]
    have consumed := flushing.taken job member
    rw [running] at consumed
    contradiction
  refine ⟨early, ?_⟩
  rw [pendingJobs, split, List.drop_append]
  have none : v.taken - before.length = 0 := by omega
  rw [none, List.drop_zero]

/-- The files that a step of a job may change. -/
theorem JobStep.read (flushing : Flushing v db) (mergeable : Mergeable db) (step : JobStep cfg kind db next)
    {n : FileName} (notDeprecated : n.extension ≠ some .deprecated) (notIp : n.extension ≠ some .ip)
    (notMerged : kind = .compaction → n.extension ≠ some .merged) : next.files.read n = db.files.read n := by
  cases step with
  | tick => rfl
  | clean running deprecated =>
    rw [Directory.read_remove, if_neg]
    rintro rfl
    exact notDeprecated deprecated
  | @flush _ before after job index files split running write =>
    obtain ⟨_, _, written⟩ := writeSSTable_spec write
    have pending := (flushing.running split running).2
    have named := flushing.named job (by rw [pending]; simp)
    rw [written, Directory.read_write, if_neg]
    rintro rfl
    rw [named, genFlushInProgressSSTableFileName, FileName.extension_add] at notIp
    exact notIp rfl
  | compaction launched running merge =>
    obtain ⟨within, xs, onDisk⟩ := mergeable _ launched running
    obtain ⟨I, _, _, _, _, _, _, _, keeps⟩ := compact_spec onDisk within merge
    exact keeps.sst (notMerged rfl) notDeprecated

/-- The other pending jobs write to other files. -/
theorem Flushing.others (flushing : Flushing v db) {before after : List FlushJob} {job : FlushJob}
    (split : db.flushToDiskFutures = before ++ job :: after) (running : job.future = .running) :
    ∀ other ∈ before.drop v.taken ++ after, other.fileName ≠ job.fileName := by
  have order := flushing.order
  rw [(flushing.running split running).2] at order
  obtain ⟨_, jobs, _⟩ := List.pairwise_append.mp order
  rw [List.map_append, List.map_cons] at jobs
  obtain ⟨_, later, earlier⟩ := List.pairwise_append.mp jobs
  intro other member same
  rcases List.mem_append.mp member with low | high
  · have below := earlier _ (List.mem_map_of_mem low) _ (List.mem_cons_self ..)
    rw [same] at below
    exact lt_irrefl _ below
  · have above := (List.pairwise_cons.mp later).1 _ (List.mem_map_of_mem high)
    rw [same] at above
    exact lt_irrefl _ above

/-- A flush job that has written its file holds its table. -/
theorem Flushing.written (flushing : Flushing v db) {before after : List FlushJob} {job : FlushJob}
    {index : SSTableIndex} {files : Files} (split : db.flushToDiskFutures = before ++ job :: after)
    (running : job.future = .running)
    (write : writeSSTable cfg.ssTableIndexBlockSizeInBytes (db.flushedTable job) job.fileName db.files =
      .ok index files) :
    Flushing v { db with
      files := files
      flushToDiskFutures := before ++ { job with future := .ready (.ok index) } :: after } := by
  obtain ⟨early, pending⟩ := flushing.running split running
  obtain ⟨holds, name, written⟩ := writeSSTable_spec write
  have others := flushing.others split running
  have pendingNext : pendingJobs v { db with
      files := files
      flushToDiskFutures := before ++ { job with future := .ready (.ok index) } :: after } =
      before.drop v.taken ++ { job with future := .ready (.ok index) } :: after := by
    rw [pendingJobs, List.drop_append_of_le_length early]
  have counters : (before.drop v.taken ++ { job with future := .ready (.ok index) } :: after).map
      (·.fileName.counter) = (db.pendingJobs v).map (·.fileName.counter) := by
    rw [pending, List.map_append, List.map_append, List.map_cons, List.map_cons]
  refine ⟨?_, ?_, ?_, flushing.distinct, flushing.allocated, flushing.memory, flushing.retired, ?_, ?_, ?_, ?_⟩
  · simp only [List.length_append]
    omega
  · have same : (before ++ { job with future := .ready (.ok index) } :: after).take v.taken =
        db.flushToDiskFutures.take v.taken := by
      rw [split, List.take_append_of_le_length early, List.take_append_of_le_length early]
    rw [same]
    exact flushing.taken
  · have aligned := flushing.aligned
    rw [split] at aligned
    rw [← aligned, List.map_append, List.map_append, List.map_cons, List.map_cons]
  · rw [pendingNext]
    intro other member
    have old : other ∈ before.drop v.taken ++ after → Sound { db with
        files := files
        flushToDiskFutures := before ++ { job with future := .ready (.ok index) } :: after } other := by
      intro beside
      have sound := flushing.sound other (by
        rw [pending]
        simp only [List.mem_append, List.mem_cons] at beside ⊢
        tauto)
      refine sound.frame rfl ?_
      rw [written, Directory.read_write, if_neg (others other beside)]
    rcases List.mem_append.mp member with low | high
    · exact old (List.mem_append_left _ low)
    · rcases List.mem_cons.mp high with rfl | high
      · exact Or.inr ⟨index, _, rfl, name, rfl, holds⟩
      · exact old (List.mem_append_right _ high)
  · rw [pendingNext]
    have named := flushing.named
    rw [pending] at named
    intro other member
    rcases List.mem_append.mp member with low | high
    · exact named other (List.mem_append_left _ low)
    · rcases List.mem_cons.mp high with rfl | high
      · exact named job (by simp)
      · exact named other (by simp [high])
  · rw [pendingNext, counters]
    exact flushing.order
  · rw [pendingNext, counters]
    exact flushing.base

theorem Flushing.step (flushing : Flushing v db) (mergeable : Mergeable db) (step : JobStep cfg kind db next) :
    Flushing v next := by
  cases step with
  | tick => exact flushing.frame ⟨rfl, rfl, rfl, rfl, rfl, rfl⟩ fun _ _ => rfl
  | clean running deprecated =>
    refine flushing.frame ⟨rfl, rfl, rfl, rfl, rfl, rfl⟩ fun n isIp => ?_
    rw [Directory.read_remove, if_neg]
    rintro rfl
    rw [isIp] at deprecated
    contradiction
  | compaction launched running merge =>
    obtain ⟨within, xs, onDisk⟩ := mergeable _ launched running
    obtain ⟨I, _, _, _, _, _, _, _, keeps⟩ := compact_spec onDisk within merge
    exact flushing.frame ⟨rfl, rfl, rfl, rfl, rfl, rfl⟩ fun n isIp =>
      keeps.sst (by rw [isIp]; decide) (by rw [isIp]; decide)
  | @flush _ before after job index files split running write =>
    exact flushing.written split running write

theorem JobStep.memory (step : JobStep cfg kind db next) :
    next.memTableQueue = db.memTableQueue ∧ next.transactionLogFileCounterBase = db.transactionLogFileCounterBase ∧
      next.ssTableIndexQueue = db.ssTableIndexQueue := by
  cases step <;> exact ⟨rfl, rfl, rfl⟩

theorem Logging.step (logging : Logging v db) (flushing : Flushing v db) (mergeable : Mergeable db)
    (step : JobStep cfg kind db next) : Logging v next := by
  obtain ⟨memTableQueue, base, _⟩ := step.memory
  refine ⟨memTableQueue ▸ logging.names, fun n isLog bytes => ?_, logging.order, base ▸ logging.base⟩
  have same := step.read flushing mergeable (n := n) (by rw [isLog]; decide) (by rw [isLog]; decide)
    fun _ => by rw [isLog]; decide
  rw [same]
  exact logging.files n isLog bytes

theorem Shelved.step (shelved : Shelved v db) (flushing : Flushing v db) (mergeable : Mergeable db)
    (step : JobStep cfg kind db next) : Shelved v next := by
  refine shelved.frame step.memory.2.2 fun n isSst => ?_
  exact step.read flushing mergeable (by rw [isSst]; decide) (by rw [isSst]; decide) fun _ => by rw [isSst]; decide

/-- The steps of the background jobs keep the invariant. -/
theorem Inv.step (inv : Inv cfg permit v db) (step : JobStep cfg kind db next)
    (permitted : kind = .compaction → permit (v.queue.map Prod.snd) db.ssTableIndexQueue.compactionStartIndex) :
    Inv cfg permit v next := by
  refine ⟨inv.flushing.step inv.mergeable step, inv.logging.step inv.flushing inv.mergeable step,
    inv.shelved.step inv.flushing inv.mergeable step, ?_⟩
  have reads (n : FileName) (isMerged : n.extension = some .merged) (notJob : kind ≠ .compaction) :
      next.files.read n = db.files.read n :=
    step.read inv.flushing inv.mergeable (by rw [isMerged]; decide) (by rw [isMerged]; decide) fun same =>
      absurd same notJob
  cases step with
  | tick => exact inv.compacting.frame rfl rfl fun _ _ => rfl
  | clean running deprecated => exact inv.compacting.frame rfl rfl fun n isMerged => reads n isMerged (by decide)
  | flush split running write => exact inv.compacting.frame rfl rfl fun n isMerged => reads n isMerged (by decide)
  | @compaction _ job merged files launched running merge =>
    obtain ⟨begins, ends, positive, inside, _⟩ := inv.compacting job launched
    obtain ⟨I, before, start, wide, out, groups, nonempty, all, _⟩ := compact_spec inv.onDisk (by omega) merge
    rintro finished same
    cases same
    refine ⟨begins, ends, positive, inside, Or.inr ⟨I, by rw [out], ⟨before, start, by omega, groups, nonempty, all⟩, ?_⟩⟩
    exact begins ▸ permitted rfl

end ProjectDbImpl
end ProjectDb
