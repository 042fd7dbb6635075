import ProjectDb.FileNumbers

namespace ProjectDb

theorem FileName.Within.mono {c d : Counters} {name : FileName} (within : name.Within c) (more : c ≤ d) : name.Within d :=
  ⟨fun isSst => (within.1 isSst).trans more.1, fun isLog => (within.2 isLog).trans_le more.2⟩

theorem FileName.Finished.mono {c d : Counters} {name : FileName} (finished : name.Finished c) (more : c ≤ d) :
    name.Finished d := by
  obtain ⟨k, used, same⟩ := finished
  exact ⟨k, used.trans more.1, same⟩

theorem FileName.Unfinished.mono {c d : Counters} {name : FileName} (unfinished : name.Unfinished c) (more : c ≤ d) :
    name.Unfinished d := by
  obtain ⟨k, used, same⟩ := unfinished
  exact ⟨k, used.trans more.1, same⟩

/-- A flush job writes, or has written, to the name of an SSTable that is not
finished. -/
structure FlushJob.Numbered (c : Counters) (job : FlushJob) : Prop where
  running : job.future = .running → job.fileName.Unfinished c
  ready : ∀ index, job.future = .ready (.ok index) → index.ssTableFileName.Unfinished c

theorem FlushJob.numbered_consumed {c : Counters} {job : FlushJob} (consumed : job.future = .consumed) :
    job.Numbered c := by
  refine ⟨fun running => ?_, fun index ready => ?_⟩
  · rw [consumed] at running
    contradiction
  · rw [consumed] at ready
    contradiction

namespace ProjectDbImpl

def counters (db : ProjectDbImpl) : Counters := (db.ssTableFileCounterBase, db.transactionLogFileCounterBase)

/-- The counters are `c`, and no name in the directory or in memory has a
counter that is still to come. -/
structure Numbered (c : Counters) (db : ProjectDbImpl) : Prop where
  counters : db.counters = c
  files : Covered c db.files
  queue : ∀ index ∈ db.ssTableIndexQueue.queue, index.ssTableFileName.Finished c
  flushes : ∀ job ∈ db.flushToDiskFutures, job.Numbered c
  merged : ∀ job out, db.ssTableCompactionFuture = some job → job.future = .ready (.ok out) →
    ∀ index ∈ out, index.ssTableFileName.Unfinished c

variable {cfg : Config} {permit : List SSTable → Nat → Prop} {v : View} {c d : Counters} {db next s t : ProjectDbImpl}

section Invariant

theorem Inv.finished (inv : Inv cfg permit v db) {x : Indexed} (onShelf : x ∈ v.shelf) :
    x.1.ssTableFileName.Finished db.counters :=
  ⟨counterOf x, inv.flushing.base _ (List.mem_append_left _ (List.mem_map_of_mem onShelf)), inv.shelved.named x onShelf⟩

theorem Inv.covered (inv : Inv cfg permit v db) : Covered db.counters db.files := by
  intro n member
  obtain ⟨bytes, found⟩ := Directory.mem_names.mp member
  refine ⟨fun isSst => ?_, fun isLog => ?_⟩
  · obtain ⟨x, onShelf, rfl⟩ := List.mem_map.mp (inv.shelved.listed n isSst bytes found)
    exact (inv.finished onShelf).within.1 isSst
  · obtain ⟨l, logged, rfl, _⟩ := (inv.logging.files n isLog bytes).mp found
    exact inv.logging.base l logged

theorem Inv.numbered (inv : Inv cfg permit v db) : Numbered db.counters db := by
  refine ⟨rfl, inv.covered, fun index member => ?_, fun job member => ?_, fun job out launched ready index member => ?_⟩
  · rw [← inv.shelved.queue] at member
    obtain ⟨x, queued, rfl⟩ := List.mem_map.mp member
    exact inv.finished (List.mem_append_left _ queued)
  · rw [← List.take_append_drop v.taken db.flushToDiskFutures] at member
    rcases List.mem_append.mp member with taken | pending
    · exact FlushJob.numbered_consumed (inv.flushing.taken job taken)
    have named : job.fileName.Unfinished db.counters :=
      ⟨_, inv.flushing.base _ (List.mem_append_right _ (List.mem_map_of_mem pending)),
        Or.inl (inv.flushing.named job pending)⟩
    refine ⟨fun _ => named, fun index ready => ?_⟩
    rcases inv.flushing.sound job pending with running | ⟨other, s, same, written, _⟩
    · rw [running] at ready
      contradiction
    · rw [ready] at same
      cases same
      exact written ▸ named
  · obtain ⟨_, _, _, _, running | ⟨I, same, compacted, _⟩⟩ := inv.compacting job launched
    · rw [running] at ready
      contradiction
    · rw [ready] at same
      cases same
      obtain ⟨m, merged, rfl⟩ := List.mem_map.mp member
      obtain ⟨_, first, head, named⟩ := compacted.merged m merged
      have grouped : m.1 ∈ groupsOfRange cfg I.window := compacted.groups ▸ List.mem_map_of_mem merged
      have inWindow : first ∈ I.window := by
        rw [← groupsOfRange_flatten cfg I.window]
        exact List.mem_flatten.mpr ⟨m.1, grouped, List.mem_of_mem_head? head⟩
      have queued : first ∈ v.queue := by
        rw [← compacted.before]
        simp [Install.before, inWindow]
      obtain ⟨k, used, same⟩ := inv.finished (List.mem_append_left v.handed queued)
      exact ⟨k, used, Or.inr (by rw [named, same])⟩

end Invariant

section Steps

theorem Numbered.withFiles {files : Files} (numbered : Numbered c db) (covered : Covered c files) :
    Numbered c { db with files := files } :=
  ⟨numbered.counters, covered, numbered.queue, numbered.flushes, numbered.merged⟩

theorem Numbered.compacted {job : CompactionJob} {out : List SSTableIndex} {files : Files} (numbered : Numbered c db)
    (run : SSTableIndexQueue.compact cfg job db = .ok out files) :
    Covered c files ∧ ∀ index ∈ out, index.ssTableFileName.Unfinished c := by
  unfold SSTableIndexQueue.compact at run
  split_ifs at run
  obtain ⟨grown, named⟩ := mergeSSTables_mergesInto run
  refine ⟨numbered.files.grown fun n member => (grown n member).imp_right fun isMerged => ?_, fun index member => ?_⟩
  · exact FileName.within_other (by rw [isMerged]; decide) (by rw [isMerged]; decide)
  · obtain ⟨base, listed, same⟩ := (named index member).resolve_left List.not_mem_nil
    obtain ⟨old, inRange, rfl⟩ := List.mem_map.mp listed
    obtain ⟨k, used, called⟩ := numbered.queue old (List.mem_of_mem_drop (List.mem_of_mem_take inRange))
    exact ⟨k, used, Or.inr (by rw [same, called])⟩

/-- The jobs use no counters. -/
theorem Numbered.step {kind : JobKind} (numbered : Numbered c db) (step : JobStep cfg kind db next) : Numbered c next := by
  cases step with
  | tick => exact ⟨numbered.counters, numbered.files, numbered.queue, numbered.flushes, numbered.merged⟩
  | clean => exact numbered.withFiles (numbered.files.remove _)
  | @flush _ before after job index files split running write =>
    obtain ⟨_, named, rfl⟩ := writeSSTable_spec write
    have flushes := numbered.flushes
    rw [split] at flushes
    have unfinished := (flushes job (by simp)).running running
    refine ⟨numbered.counters, numbered.files.write unfinished.within _, numbered.queue, fun other member => ?_,
      numbered.merged⟩
    rcases List.mem_append.mp member with early | late
    · exact flushes other (List.mem_append_left _ early)
    · rcases List.mem_cons.mp late with rfl | late
      · refine ⟨fun still => by contradiction, fun index' ready => ?_⟩
        cases ready
        exact named ▸ unfinished
      · exact flushes other (List.mem_append_right _ (List.mem_cons_of_mem _ late))
  | compaction launched running merge =>
    obtain ⟨covered, named⟩ := numbered.compacted merge
    refine ⟨numbered.counters, covered, numbered.queue, numbered.flushes, fun job out same ready => ?_⟩
    cases same
    cases ready
    exact named

theorem Numbered.stable : Prog.Stable (Others cfg permit) (Numbered c) := fun _ _ numbered step => by
  obtain ⟨kind, step, _⟩ := step
  exact numbered.step step

end Steps

section Actions

/-- What an action adds to the flush jobs and to the logs in memory: nothing,
or one with the next counter. -/
structure Grown (c : Counters) (s t : ProjectDbImpl) : Prop where
  flushes : t.flushToDiskFutures.length ≤ s.flushToDiskFutures.length ∨
    ∃ job, t.flushToDiskFutures = s.flushToDiskFutures ++ [job] ∧
      job.fileName = genFlushInProgressSSTableFileName (genSSTableFileName (c.1 + 1))
  logs : t.memTableQueue.length ≤ s.memTableQueue.length ∨
    ∃ entry, t.memTableQueue = s.memTableQueue ++ [entry] ∧
      entry.2.transactionLogFileName = genTransactionLogFileName c.2

/-- An action grows a state whose counters are no less than `c`. -/
def Grows (c : Counters) (s t : ProjectDbImpl) : Prop := ∃ d, c ≤ d ∧ Numbered d s ∧ Grown d s t

/-- An action that uses no counter. -/
structure Kept (c : Counters) (s t : ProjectDbImpl) : Prop where
  numbered : Numbered c t
  flushes : t.flushToDiskFutures.length ≤ s.flushToDiskFutures.length
  logs : t.memTableQueue.length ≤ s.memTableQueue.length

theorem Kept.grown (kept : Kept c s t) : Grown c s t := ⟨Or.inl kept.flushes, Or.inl kept.logs⟩

theorem Kept.grows (kept : Kept c s t) (numbered : Numbered c s) : Grows c s t := ⟨c, le_rfl, numbered, kept.grown⟩

theorem Numbered.grows_refl (numbered : Numbered c s) : Grows c s s := Kept.grows ⟨numbered, le_rfl, le_rfl⟩ numbered

/-- The rule of an action that uses no counter, and of which something is known
when it returns. -/
theorem Numbered.atomic {α : Type} {f : DbM α} (known : α → Prop) (numbered : Numbered c db)
    (effect : ∀ s, Numbered c s → (f s).EndsIn (fun a t => known a ∧ Kept c s t) fun _ => Kept c s) :
    (Prog.atomic f).Meets (Others cfg permit) (Grows c) (fun a t => known a ∧ Numbered c t) (fun _ => Numbered c) db := by
  refine Prog.Meets.atomic Numbered.stable (fun a s t holds step => ⟨holds.1, Numbered.stable holds.2 step⟩)
    (fun _ => Numbered.stable) numbered fun s now => ⟨?_, ?_⟩
  · exact EStateM.endsIn_left.mp ((effect s now).mono (fun _ _ holds => holds.2.grows now) fun _ _ kept => kept.grows now)
  · exact (effect s now).mono (fun _ _ holds => ⟨holds.1, holds.2.numbered⟩) fun _ _ kept => kept.numbered

/-- The rule of an action that uses no counter. -/
theorem Numbered.quiet {α : Type} {f : DbM α} (numbered : Numbered c db)
    (effect : ∀ s, Numbered c s → (f s).EndsIn (fun _ => Kept c s) fun _ => Kept c s) :
    (Prog.atomic f).Meets (Others cfg permit) (Grows c) (fun _ => Numbered c) (fun _ => Numbered c) db := by
  refine (numbered.atomic (fun _ => True) fun s now => (effect s now).mono (fun _ _ kept => ⟨trivial, kept⟩) ?_).mono
    (fun _ _ holds => holds.2) fun _ _ holds => holds
  exact fun _ _ kept => kept

theorem Numbered.file {α : Type} {op : FileM α} (known : α → Prop) (numbered : Numbered c db)
    (effect : ∀ files, Covered c files →
      (op files).EndsIn (fun a after => known a ∧ Covered c after) fun _ after => Covered c after) :
    (DbM.file op db).EndsIn (fun a t => known a ∧ Kept c db t) fun _ => Kept c db := by
  have done := effect db.files numbered.files
  unfold DbM.file
  cases run : op db.files with
  | ok a after =>
    rw [run] at done
    exact ⟨done.1, numbered.withFiles done.2, le_rfl, le_rfl⟩
  | error e after =>
    rw [run] at done
    exact ⟨numbered.withFiles done, le_rfl, le_rfl⟩

theorem Numbered.ret {α : Type} {a : α} (numbered : Numbered c db) :
    (Prog.ret a : DbProg α).Meets (Others cfg permit) (Grows c) (fun _ => Numbered c) (fun _ => Numbered c) db :=
  Prog.Meets.ret (Q := fun _ => Numbered c) Numbered.stable numbered

/-- A program that knows something of what it returns. -/
theorem Numbered.retAs {α : Type} {known : α → Prop} {a : α} (numbered : Numbered c db) (holds : known a) :
    (Prog.ret a : DbProg α).Meets (Others cfg permit) (Grows c) (fun a t => known a ∧ Numbered c t)
      (fun _ => Numbered c) db :=
  Prog.Meets.ret (Q := fun a t => known a ∧ Numbered c t)
    (fun _ _ holds step => ⟨holds.1, Numbered.stable holds.2 step⟩) ⟨holds, numbered⟩

theorem Numbered.read {α : Type} {part : ProjectDbImpl → α} (numbered : Numbered c db) :
    (Prog.read part : DbProg α).Meets (Others cfg permit) (Grows c) (fun _ => Numbered c) (fun _ => Numbered c) db := by
  intro t steps
  have now : Numbered c t := Numbered.stable.steps numbered steps
  exact ⟨now.grows_refl, Prog.Meets.ret (Q := fun _ => Numbered c) Numbered.stable now⟩

/-- What is installed by a compaction, or handed over by a flush. -/
def Named (shape : Counters → FileName → Prop) (c : Counters) (indices : List SSTableIndex) : Prop :=
  ∀ index ∈ indices, shape c index.ssTableFileName

theorem takeCompaction_numbers (s : ProjectDbImpl) (numbered : Numbered c s) :
    (takeCompaction s).EndsIn
      (fun polled t => (∀ out, polled = .done out → Named FileName.Unfinished c out) ∧ Kept c s t)
      fun _ t => Kept c s t := by
  have took (job : CompactionJob) : Kept c s (s.tookCompaction job) := by
    refine ⟨⟨numbered.counters, numbered.files, numbered.queue, numbered.flushes, ?_⟩, le_rfl, le_rfl⟩
    intro other out same ready
    cases same
    contradiction
  cases launched : s.ssTableCompactionFuture with
  | none =>
    rw [takeCompaction_absent launched]
    exact ⟨fun _ same => by contradiction, numbered, le_rfl, le_rfl⟩
  | some job =>
    cases future : job.future with
    | running =>
      rw [takeCompaction_running launched future]
      exact ⟨fun _ same => by contradiction, numbered, le_rfl, le_rfl⟩
    | consumed =>
      rw [takeCompaction_consumed launched future]
      exact ⟨numbered, le_rfl, le_rfl⟩
    | ready result =>
      cases result with
      | error e =>
        rw [takeCompaction_failed launched future]
        exact took job
      | ok out =>
        rw [takeCompaction_done launched future]
        refine ⟨fun other same => ?_, took job⟩
        cases same
        exact numbered.merged job out launched future

theorem markCompacted_numbers (range : List SSTableIndex) (numbered : Numbered c db) :
    (SSTableIndexQueue.markCompacted range).Meets (Others cfg permit) (Grows c) (fun _ => Numbered c)
      (fun _ => Numbered c) db := by
  induction range generalizing db with
  | nil => exact numbered.ret
  | cons index rest ih =>
    refine Prog.Meets.bind (numbered.quiet fun s now => ?_) fun _ t now => ih now
    have marked := now.file (fun _ => True) fun files covered =>
      (markFileAsDeprecated_covered covered index.ssTableFileName).mono (fun _ _ holds => ⟨trivial, holds⟩)
        fun _ _ holds => holds
    exact marked.mono (fun _ _ holds => holds.2) fun _ _ holds => holds

theorem renameMerged_numbers (merged : List SSTableIndex) (numbered : Numbered c db)
    (unfinished : Named FileName.Unfinished c merged) :
    (SSTableIndexQueue.renameMerged merged).Meets (Others cfg permit) (Grows c)
      (fun renamed t => Named FileName.Finished c renamed ∧ Numbered c t) (fun _ => Numbered c) db := by
  induction merged generalizing db with
  | nil => exact numbered.retAs fun _ member => absurd member List.not_mem_nil
  | cons index rest ih =>
    refine (numbered.atomic (FileName.Finished c) fun s now => now.file (FileName.Finished c) fun files covered =>
      removeExtAndRename_covered covered (unfinished index (List.mem_cons_self ..))).bind fun name t now => ?_
    refine (ih now.2 fun other member => unfinished other (List.mem_cons_of_mem _ member)).bind fun renamed u later => ?_
    refine later.2.retAs fun other member => ?_
    rcases List.mem_cons.mp member with rfl | member
    · exact now.1
    · exact later.1 other member

/-- `update` with tables that are named after tables of the queue. -/
theorem update_numbers {merged : List SSTableIndex} (numbered : Numbered c db)
    (unfinished : Named FileName.Unfinished c merged) :
    (SSTableIndexQueue.update cfg merged).Meets (Others cfg permit) (Grows c) (fun _ => Numbered c)
      (fun _ => Numbered c) db := by
  have throws (e : Exn) {t : ProjectDbImpl} (now : Numbered c t) : (Prog.throw e : DbProg Unit).Meets
      (Others cfg permit) (Grows c) (fun _ => Numbered c) (fun _ => Numbered c) t :=
    Prog.Meets.throw (T := fun _ => Numbered c) Numbered.stable now
  refine numbered.read.bind fun self t now => ?_
  dsimp only
  split_ifs
  · exact throws _ now
  · exact throws _ now
  · exact throws _ now
  · refine (markCompacted_numbers _ now).bind fun _ t now => ?_
    refine Prog.Meets.bind (now.quiet fun s now => ⟨?_, le_rfl, le_rfl⟩) fun _ t now => ?_
    · refine ⟨now.counters, now.files, fun index member => now.queue index ?_, now.flushes, now.merged⟩
      exact (List.mem_append.mp member).elim List.mem_of_mem_take List.mem_of_mem_drop
    refine (renameMerged_numbers _ now unfinished).bind fun renamed t now => ?_
    obtain ⟨finished, now⟩ := now
    refine now.quiet fun s now => ⟨?_, le_rfl, le_rfl⟩
    refine ⟨now.counters, now.files, fun index member => ?_, now.flushes, now.merged⟩
    rcases List.mem_append.mp member with early | late
    · rcases List.mem_append.mp early with old | new
      · exact now.queue index (List.mem_of_mem_take old)
      · exact finished index new
    · exact now.queue index (List.mem_of_mem_drop late)

theorem checkSSTableCompactionFuture_numbers (numbered : Numbered c db) :
    (checkSSTableCompactionFuture cfg).Meets (Others cfg permit) (Grows c) (fun _ => Numbered c)
      (fun _ => Numbered c) db := by
  refine Prog.Meets.bind (numbered.atomic _ takeCompaction_numbers) fun polled t now => ?_
  obtain ⟨known, now⟩ := now
  cases polled with
  | absent => exact now.ret
  | pending => exact now.ret
  | done merged =>
    refine (update_numbers now (known merged rfl)).bind fun _ u now => ?_
    refine Prog.Meets.bind (now.quiet fun s now => ⟨?_, le_rfl, le_rfl⟩) fun _ x now => now.ret
    exact ⟨now.counters, now.files, now.queue, now.flushes, fun job out launched => by contradiction⟩

theorem takeFlush_numbers (s : ProjectDbImpl) (numbered : Numbered c s) :
    (takeFlush s).EndsIn
      (fun polled t => (∀ index, polled = .done index → index.ssTableFileName.Finished c) ∧ Kept c s t)
      fun _ t => Kept c s t := by
  cases futures : s.flushToDiskFutures with
  | nil =>
    rw [takeFlush_absent futures]
    exact ⟨fun _ same => by contradiction, numbered, le_rfl, le_rfl⟩
  | cons job rest =>
    have took {files : Files} (covered : Covered c files) :
        Kept c s { s with files := files, flushToDiskFutures := { job with future := .consumed } :: rest } := by
      refine ⟨⟨numbered.counters, covered, numbered.queue, fun other member => ?_, numbered.merged⟩, ?_, le_rfl⟩
      · rcases List.mem_cons.mp member with rfl | later
        · exact FlushJob.numbered_consumed rfl
        · exact numbered.flushes other (by rw [futures]; exact List.mem_cons_of_mem _ later)
      · rw [futures]
        exact le_rfl
    cases future : job.future with
    | running =>
      rw [takeFlush_running futures future]
      exact ⟨fun _ same => by contradiction, numbered, le_rfl, le_rfl⟩
    | consumed =>
      rw [takeFlush_consumed futures future]
      exact ⟨numbered, le_rfl, le_rfl⟩
    | ready result =>
      cases result with
      | error e =>
        rw [takeFlush_failed futures future]
        exact took numbered.files
      | ok index =>
        rw [takeFlush_done futures future]
        have unfinished := (numbered.flushes job (by rw [futures]; exact List.mem_cons_self ..)).ready index future
        have renamed := removeExtAndRename_covered numbered.files unfinished
        cases run : removeExtAndRename index.ssTableFileName s.files with
        | ok name files =>
          rw [run] at renamed
          refine ⟨fun other same => ?_, took renamed.2⟩
          cases same
          exact renamed.1
        | error e files =>
          rw [run] at renamed
          exact took renamed

theorem handOver_numbers {index : SSTableIndex} (finished : index.ssTableFileName.Finished c) (s : ProjectDbImpl)
    (numbered : Numbered c s) : (handOver index s).EndsIn (fun _ => Kept c s) fun _ => Kept c s := by
  have queued : ∀ other ∈ s.ssTableIndexQueue.queue ++ [index], other.ssTableFileName.Finished c := by
    intro other member
    rcases List.mem_append.mp member with old | new
    · exact numbered.queue other old
    · exact List.mem_singleton.mp new ▸ finished
  cases memTables : s.memTableQueue with
  | nil =>
    simp only [handOver, SSTableIndexQueue.insert, MemTableQueue.pop, DbM.change, DbM.current, bind, EStateM.bind, memTables]
    exact ⟨⟨numbered.counters, numbered.files, queued, numbered.flushes, numbered.merged⟩, le_rfl, Nat.zero_le _⟩
  | cons front later =>
    have fewer : later.length ≤ s.memTableQueue.length := by rw [memTables]; exact Nat.le_succ _
    have marked := markFileAsDeprecated_covered numbered.files front.2.transactionLogFileName
    simp only [handOver, SSTableIndexQueue.insert, MemTableQueue.pop, DbM.change, DbM.current, DbM.assign, DbM.file,
      bind, EStateM.bind, memTables]
    cases run : markFileAsDeprecated front.2.transactionLogFileName s.files with
    | ok _ files =>
      rw [run] at marked
      refine ⟨⟨numbered.counters, marked, queued, fun job member => ?_, numbered.merged⟩, ?_, fewer⟩
      · exact numbered.flushes job (List.mem_of_mem_tail member)
      · simp only [List.length_tail]
        omega
    | error e files =>
      rw [run] at marked
      exact ⟨⟨numbered.counters, marked, queued, numbered.flushes, numbered.merged⟩, le_rfl, fewer⟩

theorem pass_numbers (numbered : Numbered c db) :
    pass.Meets (Others cfg permit) (Grows c) (fun _ => Numbered c) (fun _ => Numbered c) db := by
  refine Prog.Meets.bind (numbered.atomic _ takeFlush_numbers) fun polled t now => ?_
  obtain ⟨known, now⟩ := now
  cases polled with
  | absent => exact now.ret
  | pending => exact now.ret
  | done index =>
    exact Prog.Meets.bind (now.quiet (handOver_numbers (known index rfl))) fun _ u now => now.ret

theorem drain_numbers (futures : Nat) (numbered : Numbered c db) :
    (drain futures).Meets (Others cfg permit) (Grows c) (fun _ => Numbered c) (fun _ => Numbered c) db := by
  induction futures generalizing db with
  | zero => exact numbered.ret
  | succ futures ih =>
    refine (pass_numbers numbered).bind fun handedOver t now => ?_
    cases handedOver with
    | true => exact ih now
    | false => exact now.ret

theorem launchCompaction_numbers (s : ProjectDbImpl) (numbered : Numbered c s) :
    (launchCompaction cfg s).EndsIn (fun _ => Kept c s) fun _ => Kept c s := by
  rcases tryLaunchCompaction_eq cfg s with none | ⟨_, some⟩
  · simp only [launchCompaction, bind, EStateM.bind, none]
    exact ⟨numbered, le_rfl, le_rfl⟩
  · simp only [launchCompaction, bind, EStateM.bind, some]
    refine ⟨⟨numbered.counters, numbered.files, numbered.queue, numbered.flushes, ?_⟩, le_rfl, le_rfl⟩
    intro job out launched ready
    cases launched
    contradiction

theorem checkFutures_numbers (numbered : Numbered c db) :
    (checkFutures cfg).Meets (Others cfg permit) (Grows c) (fun _ => Numbered c) (fun _ => Numbered c) db := by
  refine (checkSSTableCompactionFuture_numbers numbered).bind fun running t now => ?_
  cases running with
  | true => exact now.ret
  | false =>
    refine now.read.bind fun futures u now => (drain_numbers futures now).bind fun _ x now => ?_
    exact now.quiet launchCompaction_numbers

theorem get_numbers (cfg : Config) (key : StdString) (s : ProjectDbImpl) (numbered : Numbered c s) :
    (SSTableIndexQueue.get cfg key s).EndsIn (fun _ => Kept c s) fun _ => Kept c s := by
  obtain ⟨queue, same, opened⟩ := get_closed cfg key s
  rw [EStateM.endsIn_left, opened]
  refine ⟨⟨numbered.counters, numbered.files, fun index member => ?_, numbered.flushes, numbered.merged⟩, le_rfl, le_rfl⟩
  have listed : index.closed ∈ s.ssTableIndexQueue.queue.map (·.closed) := same ▸ List.mem_map_of_mem member
  obtain ⟨old, queued, closed⟩ := List.mem_map.mp listed
  have name : old.ssTableFileName = index.ssTableFileName := congrArg (fun x => x.ssTableFileName) closed
  exact name ▸ numbered.queue old queued

theorem find_numbers (key : StdString) (s : ProjectDbImpl) (numbered : Numbered c s) :
    (find cfg key s).EndsIn (fun _ => Kept c s) fun _ => Kept c s := by
  simp only [find, DbM.current, bind, EStateM.bind]
  cases MemTableQueue.get s key with
  | some value => exact ⟨numbered, le_rfl, le_rfl⟩
  | none =>
    have got := get_numbers cfg key s numbered
    simp only [EStateM.bind]
    cases run : SSTableIndexQueue.get cfg key s with
    | error e t =>
      rw [run] at got
      exact got
    | ok answer t =>
      rw [run] at got
      cases answer <;> exact got

theorem append_numbers (fmt : LogFormat) (op : Operation) (s : ProjectDbImpl) (numbered : Numbered c s) :
    (MemTableQueue.append fmt op s).EndsIn (fun _ => Kept c s) fun _ => Kept c s := by
  simp only [MemTableQueue.append, DbM.current, bind, EStateM.bind]
  cases s.memTableQueue.getLast? with
  | none => exact ⟨numbered, le_rfl, le_rfl⟩
  | some last =>
    simp only [DbM.file, DbM.change, appendFile, EStateM.bind]
    cases read : s.files.read last.2.transactionLogFileName with
    | none =>
      exact ⟨⟨numbered.counters, numbered.files, numbered.queue, numbered.flushes, numbered.merged⟩, le_rfl, le_rfl⟩
    | some bytes =>
      have within := numbered.files _ (Directory.mem_names.mpr ⟨bytes, read⟩)
      have now := numbered.withFiles (numbered.files.write within (bytes ++ fmt.record op))
      exact ⟨⟨now.counters, now.files, now.queue, now.flushes, now.merged⟩, le_rfl, le_rfl⟩

end Actions

section Counting

theorem Numbered.raise (numbered : Numbered c db) (more : c ≤ d) :
    Numbered d { db with ssTableFileCounterBase := d.1, transactionLogFileCounterBase := d.2 } :=
  ⟨rfl, fun n member => (numbered.files n member).mono more, fun index member => (numbered.queue index member).mono more,
    fun job member => ⟨fun running => ((numbered.flushes job member).running running).mono more,
      fun index ready => ((numbered.flushes job member).ready index ready).mono more⟩,
    fun job out launched ready index member => (numbered.merged job out launched ready index member).mono more⟩

/-- A new log takes the next counter. -/
theorem emplaceNew_numbers (numbered : Numbered c s) (room : c.2 + 1 < 2 ^ 32) :
    ∃ t entry, MemTableQueue.emplaceNew s = .ok () t ∧ Numbered (c.1, c.2 + 1) t ∧
      t.flushToDiskFutures = s.flushToDiskFutures ∧ t.memTableQueue = s.memTableQueue ++ [entry] ∧
      entry.2.transactionLogFileName = genTransactionLogFileName c.2 := by
  obtain rfl := numbered.counters
  have wrapped : (s.transactionLogFileCounterBase + 1) % 2 ^ 32 = s.transactionLogFileCounterBase + 1 :=
    Nat.mod_eq_of_lt room
  have raised : Numbered (s.counters.1, s.counters.2 + 1) _ := numbered.raise ⟨le_rfl, Nat.le_succ _⟩
  have within : (genTransactionLogFileName s.transactionLogFileCounterBase).Within (s.counters.1, s.counters.2 + 1) :=
    ⟨fun isSst => absurd isSst (by simp), fun _ => Nat.lt_succ_self _⟩
  have covered := raised.files.write within []
  simp only [MemTableQueue.emplaceNew, MemTable.create, TransactionLogWritter.create, MemTableQueue.emplaceBack,
    DbM.current, DbM.assign, DbM.file, DbM.change, openForAppend, bind, EStateM.bind, pure, EStateM.pure, wrapped]
  cases s.files.read (genTransactionLogFileName s.transactionLogFileCounterBase) with
  | some bytes =>
    exact ⟨_, _, rfl, ⟨rfl, raised.files, raised.queue, raised.flushes, raised.merged⟩, rfl, rfl, rfl⟩
  | none => exact ⟨_, _, rfl, ⟨rfl, covered, raised.queue, raised.flushes, raised.merged⟩, rfl, rfl, rfl⟩

/-- The states of a call that has used at most `n` counters of each kind. -/
def Near (c : Counters) (n : Nat) (db : ProjectDbImpl) : Prop :=
  ∃ d : Counters, c ≤ d ∧ d.1 ≤ c.1 + n ∧ d.2 ≤ c.2 + n ∧ Numbered d db

theorem Near.stable {n : Nat} : Prog.Stable (Others cfg permit) (Near c n) := by
  rintro s t ⟨d, more, sst, txl, numbered⟩ step
  exact ⟨d, more, sst, txl, Numbered.stable numbered step⟩

theorem Near.mono {m n : Nat} (near : Near c m db) (less : m ≤ n) : Near c n db := by
  obtain ⟨d, more, sst, txl, numbered⟩ := near
  exact ⟨d, more, by omega, by omega, numbered⟩

theorem Numbered.near (numbered : Numbered c db) (n : Nat) : Near c n db :=
  ⟨c, le_rfl, Nat.le_add_right _ _, Nat.le_add_right _ _, numbered⟩

/-- The rule of an action that uses at most `m` counters of each kind. -/
theorem Near.atomic {α : Type} {f : DbM α} {n m : Nat} (near : Near c n db) (sstRoom : c.1 + n + m < 2 ^ 32)
    (txlRoom : c.2 + n + m < 2 ^ 32)
    (effect : ∀ d s, d.1 + m < 2 ^ 32 → d.2 + m < 2 ^ 32 → Numbered d s →
      (f s).EndsIn (fun _ t => Grown d s t ∧ Near d m t) fun _ t => Grown d s t ∧ Near d m t) :
    (Prog.atomic f).Meets (Others cfg permit) (Grows c) (fun _ => Near c (n + m)) (fun _ => Near c (n + m)) db := by
  have further {d : Counters} {t : ProjectDbImpl} (more : c ≤ d) (sst : d.1 ≤ c.1 + n) (txl : d.2 ≤ c.2 + n)
      (near : Near d m t) : Near c (n + m) t := by
    obtain ⟨e, above, sstNext, txlNext, numbered⟩ := near
    exact ⟨e, more.trans above, by omega, by omega, numbered⟩
  refine Prog.Meets.atomic Near.stable (fun _ => Near.stable) (fun _ => Near.stable) near fun s now => ?_
  obtain ⟨d, more, sst, txl, numbered⟩ := now
  have done := effect d s (by omega) (by omega) numbered
  refine ⟨EStateM.endsIn_left.mp (done.mono (fun _ _ holds => ?_) fun _ _ holds => ?_),
    done.mono (fun _ _ holds => further more sst txl holds.2) fun _ _ holds => further more sst txl holds.2⟩
  · exact ⟨d, more, numbered, holds.1⟩
  · exact ⟨d, more, numbered, holds.1⟩

theorem prepare_numbers (d : Counters) (s : ProjectDbImpl) (txlRoom : d.2 + 1 < 2 ^ 32) (numbered : Numbered d s) :
    (MemTableQueue.prepare s).EndsIn (fun _ t => Grown d s t ∧ Near d 1 t) fun _ t => Grown d s t ∧ Near d 1 t := by
  simp only [MemTableQueue.prepare, DbM.current, bind, EStateM.bind]
  split_ifs
  · obtain ⟨t, entry, run, now, flushes, logs, named⟩ := emplaceNew_numbers numbered txlRoom
    rw [run]
    exact ⟨⟨Or.inl (le_of_eq (by rw [flushes])), Or.inr ⟨entry, logs, named⟩⟩,
      (d.1, d.2 + 1), ⟨le_rfl, Nat.le_succ _⟩, Nat.le_succ _, le_rfl, now⟩
  · exact ⟨⟨Or.inl le_rfl, Or.inl le_rfl⟩, numbered.near 1⟩

theorem launchFlush_numbers (d : Counters) (s : ProjectDbImpl) (sstRoom : d.1 + 1 < 2 ^ 32) (txlRoom : d.2 + 1 < 2 ^ 32)
    (numbered : Numbered d s) :
    (launchFlush cfg s).EndsIn (fun _ t => Grown d s t ∧ Near d 1 t) fun _ t => Grown d s t ∧ Near d 1 t := by
  simp only [launchFlush, MemTableQueue.tryLaunchFlushToDisk, DbM.current, bind, EStateM.bind]
  cases s.memTableQueue.getLast? with
  | none => exact ⟨⟨Or.inl le_rfl, Or.inl le_rfl⟩, numbered.near 1⟩
  | some last =>
    dsimp only
    split_ifs
    · obtain ⟨t, entry, run, now, flushes, logs, named⟩ := emplaceNew_numbers numbered txlRoom
      have wrapped : (t.ssTableFileCounterBase + 1) % 2 ^ 32 = d.1 + 1 := by
        rw [show t.ssTableFileCounterBase = d.1 from congrArg Prod.fst now.counters]
        exact Nat.mod_eq_of_lt sstRoom
      have raised : Numbered (d.1 + 1, d.2 + 1) _ := now.raise ⟨Nat.le_succ _, le_rfl⟩
      simp only [EStateM.bind, run, MemTableQueue.launchFlushToDisk, wrapped, pure, EStateM.pure, DbM.change]
      refine ⟨⟨Or.inr ⟨_, by rw [flushes], rfl⟩, Or.inr ⟨entry, logs, named⟩⟩, (d.1 + 1, d.2 + 1),
        ⟨Nat.le_succ _, Nat.le_succ _⟩, le_rfl, le_rfl, ?_⟩
      refine ⟨congrArg (fun c : Counters => (d.1 + 1, c.2)) now.counters, raised.files, raised.queue, fun job member => ?_,
        raised.merged⟩
      rcases List.mem_append.mp member with old | new
      · exact raised.flushes job old
      · rw [List.mem_singleton.mp new]
        exact ⟨fun _ => ⟨d.1 + 1, le_rfl, Or.inl rfl⟩, fun index ready => by contradiction⟩
    · exact ⟨⟨Or.inl le_rfl, Or.inl le_rfl⟩, numbered.near 1⟩

theorem Numbered.room (numbered : Numbered c db) (bounded : db.Bounded) : c.1 < 2 ^ 31 ∧ c.2 < 2 ^ 31 := by
  obtain rfl := numbered.counters
  exact bounded

theorem write_numbers (fmt : LogFormat) (op : Operation) (numbered : Numbered c db) (bounded : db.Bounded) :
    (write cfg fmt op).Meets (Others cfg permit) (Grows c) (fun _ => Near c 2) (fun _ => Near c 2) db := by
  obtain ⟨sstRoom, txlRoom⟩ := numbered.room bounded
  refine ((checkFutures_numbers numbered).mono (fun _ _ holds => holds) fun _ _ now => now.near 2).bind fun _ t now => ?_
  have prepared : (Prog.atomic MemTableQueue.prepare).Meets (Others cfg permit) (Grows c) (fun _ => Near c 1)
      (fun _ => Near c 2) t :=
    ((now.near 0).atomic (by omega) (by omega) fun d s _ room holds => prepare_numbers d s room holds).mono
      (fun _ _ holds => holds) fun _ _ near => near.mono (by omega)
  have appended (u : ProjectDbImpl) (near : Near c 1 u) : (Prog.atomic (MemTableQueue.append fmt op)).Meets
      (Others cfg permit) (Grows c) (fun _ => Near c 1) (fun _ => Near c 2) u := by
    refine (near.atomic (m := 0) (by omega) (by omega) fun d s _ _ holds => (append_numbers fmt op s holds).mono ?_ ?_).mono
      (fun _ _ holds => holds) fun _ _ near => near.mono (by omega)
    · exact fun _ u kept => ⟨kept.grown, kept.numbered.near 0⟩
    · exact fun _ u kept => ⟨kept.grown, kept.numbered.near 0⟩
  refine (prepared.bind fun _ u near => appended u near).bind fun _ u near => ?_
  exact near.atomic (by omega) (by omega) fun d s sst txl holds => launchFlush_numbers d s sst txl holds

/-- A call uses at most two counters of each kind, and only the next ones. -/
theorem call_numbers (fmt : LogFormat) (call : Call) (numbered : Numbered c db) (bounded : db.Bounded) :
    (call.prog cfg fmt).Meets (Others cfg permit) (Grows c) (fun _ => Near c 2) (fun _ => Near c 2) db := by
  have silent (t : ProjectDbImpl) (near : Near c 2 t) : (pure none : DbProg (Option StdString)).Meets (Others cfg permit)
      (Grows c) (fun _ => Near c 2) (fun _ => Near c 2) t :=
    Prog.Meets.ret (Q := fun _ => Near c 2) Near.stable near
  cases call with
  | get key =>
    refine ((checkFutures_numbers numbered).mono (fun _ _ holds => holds) fun _ _ now => now.near 2).bind fun _ t now => ?_
    exact (now.quiet (find_numbers key)).mono (fun _ _ now => now.near 2) fun _ _ now => now.near 2
  | set key value => exact (write_numbers fmt (.set key value) numbered bounded).bind fun _ t near => silent t near
  | remove key => exact (write_numbers fmt (.remove key) numbered bounded).bind fun _ t near => silent t near

end Counting
end ProjectDbImpl
end ProjectDb
