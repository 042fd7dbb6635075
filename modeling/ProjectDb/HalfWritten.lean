import ProjectDb.MergeFrame
import ProjectDb.Isolation
import ProjectDb.Foundation.Mirroring

namespace ProjectDb
namespace ProjectDbImpl

section Jobs
variable (cfg : Config)

/-- A file that a running job has still to finish. -/
def HalfWritten (db : ProjectDbImpl) (n : FileName) : Prop :=
  (∃ job ∈ db.flushToDiskFutures, job.future = .running ∧ job.fileName = n) ∨
    ∃ job out files, db.ssTableCompactionFuture = some job ∧ job.future = .running ∧
      SSTableIndexQueue.compact cfg job db = .ok out files ∧ n ∈ out.map (·.ssTableFileName)

/-- The steps of jobs that write their files bit by bit: until a job has finished,
its files may hold anything. -/
inductive Working (permit : List SSTable → Nat → Prop) : ProjectDbImpl → ProjectDbImpl → Prop
  | finishing {db next : ProjectDbImpl} : Others cfg permit db next → Working permit db next
  | writing {db : ProjectDbImpl} {n : FileName} (bytes : List Byte) : HalfWritten cfg db n →
      Working permit db { db with files := db.files.write n bytes }

/-- The same state but for what is in half-written files. -/
inductive Beside (db : ProjectDbImpl) : ProjectDbImpl → Prop
  | intro (files : Files) (agree : Agree (fun n => ¬ HalfWritten cfg db n) db.files files) :
      Beside db { db with files := files }

end Jobs

/-- What the names of the files in memory are like. -/
structure Orderly (db : ProjectDbImpl) : Prop where
  queue : ∀ index ∈ db.ssTableIndexQueue.queue, index.ssTableFileName.extension = some .sst
  logs : ∀ e ∈ db.memTableQueue, e.2.transactionLogFileName.extension = some .txl
  running : ∀ job ∈ db.flushToDiskFutures, job.future = .running → job.fileName.extension = some .ip
  ready : ∀ job ∈ db.flushToDiskFutures, ∀ index, job.future = .ready (.ok index) →
    ∀ other ∈ db.flushToDiskFutures, other.future = .running → other.fileName ≠ index.ssTableFileName
  merged : ∀ job out, db.ssTableCompactionFuture = some job → job.future = .ready (.ok out) →
    ∀ index ∈ out, index.ssTableFileName.extension = some .merged

variable {cfg : Config} {permit : List SSTable → Nat → Prop} {s s' t t' : ProjectDbImpl} {n : FileName}

/-- The names of the queue. -/
def queueNames (db : ProjectDbImpl) : List FileName := db.ssTableIndexQueue.queue.map (·.ssTableFileName)

theorem compact_agree {A : FileName → Prop} {job : CompactionJob} {out : List SSTableIndex} {files : Files}
    (agree : Agree A s.files t.files) (named : t.queueNames = s.queueNames) (known : ∀ m ∈ s.queueNames, A m)
    (run : SSTableIndexQueue.compact cfg job s = .ok out files) :
    ∃ left, SSTableIndexQueue.compact cfg job t = .ok out left ∧
      Agree (fun n => n ∈ out.map (·.ssTableFileName) ∨ A n) files left := by
  have length := congrArg List.length named
  simp only [queueNames, List.length_map] at length
  unfold SSTableIndexQueue.compact at run ⊢
  rw [length]
  split_ifs at run ⊢
  refine mergeSSTables_agree agree ?_ (fun x member => known _ (List.mem_map_of_mem ?_)) run
  · rw [List.map_take, List.map_drop, List.map_take, List.map_drop]
    exact congrArg (fun names => (names.drop job.beginIt).take (job.endIt - job.beginIt)) named
  · exact List.mem_of_mem_drop (List.mem_of_mem_take member)

theorem compact_merged {job : CompactionJob} {out : List SSTableIndex} {files : Files}
    (run : SSTableIndexQueue.compact cfg job s = .ok out files) (listed : n ∈ out.map (·.ssTableFileName)) :
    n.extension = some .merged := by
  unfold SSTableIndexQueue.compact at run
  split_ifs at run
  obtain ⟨index, member, rfl⟩ := List.mem_map.mp listed
  obtain ⟨base, _, same⟩ := ((mergeSSTables_mergesInto run).2 index member).resolve_left List.not_mem_nil
  rw [same]
  exact FileName.extension_add ..

/-- Half-written files are temporary ones. -/
theorem HalfWritten.temporary (half : HalfWritten cfg s n) (orderly : Orderly s) :
    n.extension = some .ip ∨ n.extension = some .merged := by
  rcases half with ⟨job, member, running, rfl⟩ | ⟨job, out, files, _, _, run, listed⟩
  · exact Or.inl (orderly.running job member running)
  · exact Or.inr (compact_merged run listed)

theorem Orderly.finished (orderly : Orderly s) (notIp : n.extension ≠ some .ip) (notMerged : n.extension ≠ some .merged) :
    ¬ HalfWritten cfg s n := fun half => (half.temporary orderly).elim notIp notMerged

/-- The tables and logs have been written. -/
theorem Orderly.data (orderly : Orderly s) (data : n.extension = some .sst ∨ n.extension = some .txl) :
    ¬ HalfWritten cfg s n := by
  rcases data with same | same <;> exact orderly.finished (by rw [same]; decide) (by rw [same]; decide)

/-- Without a running compaction only flush jobs are writing. -/
theorem HalfWritten.flushing (half : HalfWritten cfg s n)
    (still : ∀ job, s.ssTableCompactionFuture = some job → job.future ≠ .running) :
    ∃ job ∈ s.flushToDiskFutures, job.future = .running ∧ job.fileName = n := by
  rcases half with flushing | ⟨job, _, _, launched, running, _⟩
  · exact flushing
  · exact absurd running (still job launched)

theorem HalfWritten.job (half : HalfWritten cfg s n) (idle : s.ssTableCompactionFuture = none) :
    ∃ job ∈ s.flushToDiskFutures, job.future = .running ∧ job.fileName = n :=
  half.flushing fun job launched => by
    rw [idle] at launched
    cases launched

theorem CompactionTaken.still (taken : s.CompactionTaken) (job : CompactionJob)
    (launched : s.ssTableCompactionFuture = some job) : job.future ≠ .running := by
  obtain ⟨other, same, consumed⟩ := taken
  rw [launched] at same
  cases same
  rw [consumed]
  exact fun same => by cases same

/-- What a job has still to finish it has also to finish after a step that leaves
the job alone, and the tables that it reads. -/
theorem HalfWritten.later (half : HalfWritten cfg s n) (orderly : Orderly s)
    (flushes : ∀ job ∈ s.flushToDiskFutures, job.future = .running → job ∈ t.flushToDiskFutures)
    (compaction : ∀ job, s.ssTableCompactionFuture = some job → job.future = .running →
      t.ssTableCompactionFuture = some job ∧ t.queueNames = s.queueNames ∧
        Agree (fun n => n.extension = some .sst) s.files t.files) : HalfWritten cfg t n := by
  rcases half with ⟨job, member, running, rfl⟩ | ⟨job, out, files, launched, running, run, listed⟩
  · exact Or.inl ⟨job, flushes job member running, running, rfl⟩
  · obtain ⟨still, named, agree⟩ := compaction job launched running
    obtain ⟨left, again, _⟩ := compact_agree agree named (fun m member => by
      obtain ⟨index, queued, rfl⟩ := List.mem_map.mp member
      exact orderly.queue index queued) run
    exact Or.inr ⟨job, out, left, still, running, again, listed⟩

/-- The rule of a step in both states: the directories agree on what they agreed
on, and what was half written still is. -/
theorem Beside.step {files : Files} (agree : Agree (fun n => ¬ HalfWritten cfg s n) t.files files)
    (later : ∀ n, HalfWritten cfg s n → HalfWritten cfg t n) : Beside cfg t { t with files := files } :=
  .intro files (agree.mono fun n finished half => finished (later n half))

section Files
variable {A : FileName → Prop} {files other : Files}

theorem Agree.rename (agree : Agree A files other) {old : FileName} (known : A old) (new : FileName) :
    (Directory.rename files old new = none ∧ Directory.rename other old new = none) ∨
      ∃ a b, Directory.rename files old new = some a ∧ Directory.rename other old new = some b ∧ Agree A a b := by
  have same := agree old known
  cases found : Directory.read files old with
  | none =>
    rw [found] at same
    exact Or.inl ⟨by rw [Directory.rename, found]; rfl, by rw [Directory.rename, same]; rfl⟩
  | some bytes =>
    rw [found] at same
    obtain ⟨a, renamed⟩ := Directory.rename_exists found new
    obtain ⟨b, again⟩ := Directory.rename_exists same new
    refine Or.inr ⟨a, b, renamed, again, fun n inside => ?_⟩
    rw [Directory.rename_eq_some renamed, Directory.rename_eq_some again, found, same, agree n inside]

theorem markFileAsDeprecated_agree (agree : Agree A files other) {name : FileName} (known : A name) :
    (markFileAsDeprecated name files).Matches (Agree A) Eq (markFileAsDeprecated name other) := by
  unfold markFileAsDeprecated
  rcases Agree.rename agree known (genDeprecatedFileName name) with ⟨none, again⟩ | ⟨a, b, some, again, still⟩
  · rw [none, again]
    exact .error _ agree
  · rw [some, again]
    exact .ok rfl still

theorem removeExtAndRename_agree (agree : Agree A files other) {name : FileName} (known : A name) :
    (removeExtAndRename name files).Matches (Agree A) Eq (removeExtAndRename name other) := by
  unfold removeExtAndRename
  rcases Agree.rename agree known name.removeExt with ⟨none, again⟩ | ⟨a, b, some, again, still⟩
  · rw [none, again]
    exact .error _ agree
  · rw [some, again]
    exact .ok rfl still

theorem openForAppend_agree (agree : Agree A files other) {name : FileName} (known : A name) :
    (openForAppend name files).Matches (Agree A) Eq (openForAppend name other) := by
  unfold openForAppend
  rw [agree name known]
  cases Directory.read files name with
  | none => exact .ok rfl ((agree.write name []).mono fun _ => Or.inr)
  | some bytes => exact .ok rfl agree

theorem appendFile_agree (agree : Agree A files other) {name : FileName} (known : A name) (bytes : List Byte) :
    (appendFile name bytes files).Matches (Agree A) Eq (appendFile name bytes other) := by
  unfold appendFile
  rw [agree name known]
  cases Directory.read files name with
  | none => exact .ok rfl agree
  | some contents => exact .ok rfl ((agree.write name (contents ++ bytes)).mono fun _ => Or.inr)

end Files

end ProjectDbImpl
end ProjectDb
