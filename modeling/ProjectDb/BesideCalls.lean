import ProjectDb.HalfWritten

namespace ProjectDb
namespace ProjectDbImpl

variable {cfg : Config} {permit : List SSTable → Nat → Prop} {s s' t t' : ProjectDbImpl} {fmt : LogFormat}

section Compaction

theorem Beside.compaction (beside : Beside cfg t t') : t'.ssTableCompactionFuture = t.ssTableCompactionFuture := by
  cases beside
  rfl

theorem Beside.took (beside : Beside cfg t t') {job : CompactionJob} (launched : t.ssTableCompactionFuture = some job)
    (notRunning : job.future ≠ .running) : Beside cfg (t.tookCompaction job) (t'.tookCompaction job) := by
  cases beside with
  | intro files agree =>
    refine Beside.step (t := t.tookCompaction job) agree fun n half => Or.inl (half.flushing fun other same => ?_)
    rw [launched] at same
    cases same
    exact notRunning

theorem takeCompaction_beside (beside : Beside cfg t t') :
    (takeCompaction t).Matches (Beside cfg) Eq (takeCompaction t') := by
  have both := beside.compaction
  cases launched : t.ssTableCompactionFuture with
  | none =>
    rw [takeCompaction_absent launched, takeCompaction_absent (both.trans launched)]
    exact .ok rfl beside
  | some job =>
    have again := both.trans launched
    cases future : job.future with
    | running =>
      rw [takeCompaction_running launched future, takeCompaction_running again future]
      exact .ok rfl beside
    | consumed =>
      rw [takeCompaction_consumed launched future, takeCompaction_consumed again future]
      exact .error _ beside
    | ready result =>
      have took := beside.took launched (by rw [future]; exact fun same => by cases same)
      cases result with
      | ok merged =>
        rw [takeCompaction_done launched future, takeCompaction_done again future]
        exact .ok rfl took
      | error e =>
        rw [takeCompaction_failed launched future, takeCompaction_failed again future]
        exact .error e took

/-- What the poll of the compaction leaves, and what is to be installed. -/
def PolledNamed (polled : Polled (List SSTableIndex)) (t : ProjectDbImpl) : Prop :=
  PolledCompaction polled t ∧ ∀ merged, polled = .done merged →
    ∀ index ∈ merged, index.ssTableFileName.extension = some .merged

theorem takeCompaction_named (orderly : Orderly t) {polled : Polled (List SSTableIndex)} {u : ProjectDbImpl}
    (run : takeCompaction t = .ok polled u) : PolledNamed polled u := by
  refine ⟨?_, fun merged done index member => ?_⟩
  · have ends := (takeCompaction_effect t).2
    rw [run] at ends
    exact ends
  · subst done
    cases launched : t.ssTableCompactionFuture with
    | none =>
      rw [takeCompaction_absent launched] at run
      cases run
    | some job =>
      cases future : job.future with
      | running =>
        rw [takeCompaction_running launched future] at run
        cases run
      | consumed =>
        rw [takeCompaction_consumed launched future] at run
        cases run
      | ready result =>
        cases result with
        | ok out =>
          rw [takeCompaction_done launched future] at run
          cases run
          exact orderly.merged job merged launched future index member
        | error e =>
          rw [takeCompaction_failed launched future] at run
          cases run

/-- A file operation while a compaction is being installed. -/
theorem file_beside {α : Type} {op : FileM α} (taken : t.CompactionTaken) (beside : Beside cfg t t')
    (same : ∀ files, Agree (fun n => ¬ HalfWritten cfg t n) t.files files →
      (op t.files).Matches (Agree fun n => ¬ HalfWritten cfg t n) Eq (op files)) :
    (DbM.file op t).Matches (Beside cfg) Eq (DbM.file op t') := by
  cases beside with
  | intro files agree =>
    have later (after : Files) (n : FileName) (half : HalfWritten cfg t n) :
        HalfWritten cfg { t with files := after } n := Or.inl (half.flushing taken.still)
    have both := same files agree
    unfold DbM.file
    cases run : op t.files with
    | ok a after =>
      rw [run] at both
      obtain ⟨b, other, again, rfl, states⟩ := both.of_ok
      simp only [again]
      exact .ok rfl (Beside.step (t := { t with files := after }) states (later after))
    | error e after =>
      rw [run] at both
      obtain ⟨other, again, states⟩ := both.of_error
      simp only [again]
      exact .error e (Beside.step (t := { t with files := after }) states (later after))

/-- The rule of an action that installs a compaction. -/
theorem installs_beside {α : Type} {f : DbM α} (taken : s.CompactionTaken)
    (future : ∀ s, (f.left s).ssTableCompactionFuture = s.ssTableCompactionFuture)
    (same : ∀ t t', t.CompactionTaken → Orderly t → Beside cfg t t' → (f t).Matches (Beside cfg) Eq (f t')) :
    (Prog.atomic f).Mirrored Disturbed Orderly (Beside cfg) (fun _ => CompactionTaken) s := by
  refine Prog.Mirrored.atomic CompactionTaken.stable (fun _ => CompactionTaken.stable) taken fun t now orderly =>
    ⟨fun a u run => ?_, fun t' near => same t t' now orderly near⟩
  obtain ⟨job, launched, consumed⟩ := now
  have kept := future t
  unfold EStateM.left at kept
  rw [run] at kept
  exact ⟨job, kept.trans launched, consumed⟩

theorem markCompacted_beside (range : List SSTableIndex) (taken : s.CompactionTaken)
    (sst : ∀ index ∈ range, index.ssTableFileName.extension = some .sst) :
    (SSTableIndexQueue.markCompacted range).Mirrored Disturbed Orderly (Beside cfg) (fun _ => CompactionTaken) s := by
  induction range generalizing s with
  | nil => exact Prog.Mirrored.ret (Q := fun _ => CompactionTaken) CompactionTaken.stable taken
  | cons index rest ih =>
    have isSst := sst index (List.mem_cons_self ..)
    refine (installs_beside taken (fun t => ?_) fun t t' now orderly near => ?_).bind fun _ t now =>
      ih now fun other member => sst other (List.mem_cons_of_mem _ member)
    · exact file_left _ (fun db => db.ssTableCompactionFuture) t fun _ => rfl
    · exact file_beside now near fun files agree => markFileAsDeprecated_agree agree (orderly.data (Or.inl isSst))

theorem renameMerged_beside (merged : List SSTableIndex) (taken : s.CompactionTaken)
    (named : ∀ index ∈ merged, index.ssTableFileName.extension = some .merged) :
    (SSTableIndexQueue.renameMerged merged).Mirrored Disturbed Orderly (Beside cfg) (fun _ => CompactionTaken) s := by
  induction merged generalizing s with
  | nil => exact Prog.Mirrored.ret (Q := fun _ => CompactionTaken) CompactionTaken.stable taken
  | cons index rest ih =>
    have isMerged := named index (List.mem_cons_self ..)
    refine (installs_beside taken (fun t => ?_) fun t t' now orderly near => ?_).bind fun _ t now =>
      (ih now fun other member => named other (List.mem_cons_of_mem _ member)).bind fun _ u later =>
        Prog.Mirrored.ret (Q := fun _ => CompactionTaken) CompactionTaken.stable later
    · exact file_left _ (fun db => db.ssTableCompactionFuture) t fun _ => rfl
    · refine file_beside now near fun files agree => removeExtAndRename_agree agree fun half => ?_
      obtain ⟨job, member, running, same⟩ := half.flushing now.still
      have isIp := orderly.running job member running
      rw [same, isMerged] at isIp
      cases isIp

/-- Changing the queue while a compaction is being installed. -/
theorem change_beside {f : ProjectDbImpl → ProjectDbImpl} (taken : t.CompactionTaken) (beside : Beside cfg t t')
    (files : ∀ d, f { t with files := d } = { f t with files := d })
    (futures : (f t).flushToDiskFutures = t.flushToDiskFutures) :
    (DbM.change f t).Matches (Beside cfg) Eq (DbM.change f t') := by
  cases beside with
  | intro other agree =>
    have same : (f t).files = t.files := congrArg (·.files) (files t.files)
    have after : DbM.change f { t with files := other } = .ok () { f t with files := other } :=
      congrArg (EStateM.Result.ok ()) (files other)
    rw [after]
    refine .ok rfl (Beside.step (same ▸ agree) fun n half => Or.inl ?_)
    rw [futures]
    exact half.flushing taken.still

theorem update_beside (merged : List SSTableIndex) (taken : s.CompactionTaken)
    (named : ∀ index ∈ merged, index.ssTableFileName.extension = some .merged) :
    (SSTableIndexQueue.update cfg merged).Mirrored Disturbed Orderly (Beside cfg) (fun _ => CompactionTaken) s := by
  have stable (self : SSTableIndexQueue) : Prog.Stable Disturbed fun t => t.CompactionTaken ∧
      ∀ index ∈ self.queue, index.ssTableFileName.extension = some .sst :=
    fun _ _ now step => ⟨CompactionTaken.stable now.1 step, now.2⟩
  refine Prog.Mirrored.bind (Prog.Mirrored.read CompactionTaken.stable stable taken (fun t t' near => by cases near; rfl)
    fun t now orderly => ⟨now, orderly.queue⟩) fun self t now => ?_
  obtain ⟨now, sst⟩ := now
  dsimp only
  split_ifs
  · trivial
  · trivial
  · trivial
  · refine (markCompacted_beside _ now fun index member => sst index
      (List.mem_of_mem_drop (List.mem_of_mem_take member))).bind fun _ t now => ?_
    have erases : (Prog.atomic (SSTableIndexQueue.eraseCompacted self.compactionStartIndex
        (1 + cfg.numSSTableToCompact.toNat))).Mirrored Disturbed Orderly (Beside cfg) (fun _ => CompactionTaken) t :=
      installs_beside now (fun _ => rfl) fun t t' now _ near => change_beside now near (fun _ => rfl) rfl
    refine erases.bind fun _ t now => ?_
    refine (renameMerged_beside _ now named).bind fun renamed t now => ?_
    exact installs_beside now (fun _ => rfl) fun t t' now _ near => change_beside now near (fun _ => rfl) rfl

theorem checkSSTableCompactionFuture_beside (s : ProjectDbImpl) :
    (checkSSTableCompactionFuture cfg).Mirrored Disturbed Orderly (Beside cfg)
      (fun running t => running = false → t.ssTableCompactionFuture = none) s := by
  have after (running : Bool) : Prog.Stable Disturbed fun t => running = false → t.ssTableCompactionFuture = none :=
    fun _ _ idle step ended => idle_stable (idle ended) step
  have polls (polled : Polled (List SSTableIndex)) : Prog.Stable Disturbed (PolledNamed polled) :=
    fun _ _ now step => ⟨PolledCompaction.stable polled now.1 step, now.2⟩
  refine (Prog.Mirrored.atomic (P := fun _ => True) (fun _ _ _ _ => trivial) polls trivial fun t _ orderly =>
    ⟨fun polled u run => takeCompaction_named orderly run, fun t' near => takeCompaction_beside near⟩).bind
      fun polled t now => ?_
  obtain ⟨now, named⟩ := now
  cases polled with
  | absent => exact Prog.Mirrored.ret (after false) fun _ => now
  | pending => exact Prog.Mirrored.ret (after true) fun ended => by contradiction
  | done merged =>
    refine (update_beside merged now (named merged rfl)).bind fun _ u taken => ?_
    refine Prog.Mirrored.bind (Prog.Mirrored.atomic (Q := fun _ u => u.ssTableCompactionFuture = none) CompactionTaken.stable
      (fun _ => idle_stable) taken fun x now orderly => ⟨fun _ u run => ?_, fun x' near => ?_⟩) fun _ x idle => ?_
    · cases run
      rfl
    · exact change_beside now near (fun _ => rfl) rfl
    · exact Prog.Mirrored.ret (after false) fun _ => idle

end Compaction

section Flush

theorem Beside.futures (beside : Beside cfg t t') : t'.flushToDiskFutures = t.flushToDiskFutures := by
  cases beside
  rfl

/-- The front job is taken: it was not running any more. -/
theorem taken_later {job : FlushJob} {rest : List FlushJob} {u : ProjectDbImpl} {n : FileName}
    (idle : t.ssTableCompactionFuture = none) (front : t.flushToDiskFutures = job :: rest)
    (notRunning : job.future ≠ .running) (kept : ∀ other ∈ rest, other ∈ u.flushToDiskFutures)
    (half : HalfWritten cfg t n) : HalfWritten cfg u n := by
  obtain ⟨other, member, running, same⟩ := half.job idle
  rw [front] at member
  rcases List.mem_cons.mp member with rfl | later
  · exact absurd running notRunning
  · exact Or.inl ⟨other, kept other later, running, same⟩

theorem takeFlush_beside (idle : t.ssTableCompactionFuture = none) (orderly : Orderly t) (beside : Beside cfg t t') :
    (takeFlush t).Matches (Beside cfg) Eq (takeFlush t') := by
  have both := beside.futures
  cases front : t.flushToDiskFutures with
  | nil =>
    rw [takeFlush_absent front, takeFlush_absent (both.trans front)]
    exact .ok rfl beside
  | cons job rest =>
    have again := both.trans front
    cases future : job.future with
    | running =>
      rw [takeFlush_running front future, takeFlush_running again future]
      exact .ok rfl beside
    | consumed =>
      rw [takeFlush_consumed front future, takeFlush_consumed again future]
      exact .error _ beside
    | ready result =>
      have later (after : Files) (n : FileName) (half : HalfWritten cfg t n) : HalfWritten cfg { t with
          files := after, flushToDiskFutures := { job with future := .consumed } :: rest } n :=
        taken_later idle front (by rw [future]; exact fun same => by cases same)
          (fun other member => List.mem_cons_of_mem _ member) half
      cases beside with
      | intro files agree =>
        cases result with
        | error e =>
          rw [takeFlush_failed front future, takeFlush_failed again future]
          exact .error e (Beside.step (t := { t with
            flushToDiskFutures := { job with future := .consumed } :: rest }) agree (later t.files))
        | ok index =>
          have finished : ¬ HalfWritten cfg t index.ssTableFileName := by
            intro half
            obtain ⟨other, member, running, same⟩ := half.job idle
            exact orderly.ready job (by rw [front]; exact List.mem_cons_self ..) index future other member running same
          have renames := removeExtAndRename_agree agree finished
          rw [takeFlush_done front future, takeFlush_done again future]
          cases run : removeExtAndRename index.ssTableFileName t.files with
          | ok name after =>
            rw [run] at renames
            obtain ⟨_, other, same, rfl, states⟩ := renames.of_ok
            simp only [same]
            exact .ok rfl (Beside.step (t := { t with
              files := after, flushToDiskFutures := { job with future := .consumed } :: rest }) states (later after))
          | error e after =>
            rw [run] at renames
            obtain ⟨other, same, states⟩ := renames.of_error
            simp only [same]
            exact .error e (Beside.step (t := { t with
              files := after, flushToDiskFutures := { job with future := .consumed } :: rest }) states (later after))

theorem handOver_eq (index : SSTableIndex) (db : ProjectDbImpl) {front : MemTable × TransactionLogWritter}
    {later : List (MemTable × TransactionLogWritter)} (queue : db.memTableQueue = front :: later) :
    handOver index db = match markFileAsDeprecated front.2.transactionLogFileName db.files with
      | .ok _ files => .ok () { db with
          files := files
          memTableQueue := later
          ssTableIndexQueue := { db.ssTableIndexQueue with queue := db.ssTableIndexQueue.queue ++ [index] }
          flushToDiskFutures := db.flushToDiskFutures.tail }
      | .error e files => .error e { db with
          files := files
          memTableQueue := later
          ssTableIndexQueue := { db.ssTableIndexQueue with queue := db.ssTableIndexQueue.queue ++ [index] } } := by
  simp only [handOver, SSTableIndexQueue.insert, MemTableQueue.pop, DbM.change, DbM.current, DbM.assign, DbM.file,
    bind, EStateM.bind, queue]
  cases markFileAsDeprecated front.2.transactionLogFileName db.files <;> rfl

theorem handOver_none (index : SSTableIndex) (db : ProjectDbImpl) (queue : db.memTableQueue = []) :
    handOver index db = .error .undefined { db with
      ssTableIndexQueue := { db.ssTableIndexQueue with queue := db.ssTableIndexQueue.queue ++ [index] } } := by
  simp only [handOver, SSTableIndexQueue.insert, MemTableQueue.pop, DbM.change, DbM.current, bind, EStateM.bind, queue]
  rfl

theorem Beside.memTables (beside : Beside cfg t t') : t'.memTableQueue = t.memTableQueue := by
  cases beside
  rfl

theorem handOver_beside (index : SSTableIndex) (idle : t.ssTableCompactionFuture = none) (taken : t.FlushTaken)
    (orderly : Orderly t) (beside : Beside cfg t t') : (handOver index t).Matches (Beside cfg) Eq (handOver index t') := by
  obtain ⟨job, rest, front, consumed⟩ := taken
  have notRunning : job.future ≠ .running := by
    rw [consumed]
    exact fun same => by cases same
  have both := beside.memTables
  cases queue : t.memTableQueue with
  | nil =>
    rw [handOver_none index t queue, handOver_none index t' (both.trans queue)]
    cases beside with
    | intro files agree =>
      refine .error _ (Beside.step (t := { t with
        ssTableIndexQueue := { t.ssTableIndexQueue with queue := t.ssTableIndexQueue.queue ++ [index] } }) agree fun n => ?_)
      exact taken_later idle front notRunning fun other member => by
        rw [show ProjectDbImpl.flushToDiskFutures { t with
          ssTableIndexQueue := { t.ssTableIndexQueue with queue := t.ssTableIndexQueue.queue ++ [index] } } =
            job :: rest from front]
        exact List.mem_cons_of_mem _ member
  | cons e later =>
    have isLog := orderly.logs e (by rw [queue]; exact List.mem_cons_self ..)
    rw [handOver_eq index t queue, handOver_eq index t' (both.trans queue)]
    cases beside with
    | intro files agree =>
      have finished : ¬ HalfWritten cfg t e.2.transactionLogFileName := orderly.data (Or.inr isLog)
      have marks := markFileAsDeprecated_agree agree finished
      have rests : ∀ other ∈ rest, other ∈ t.flushToDiskFutures.tail := fun other member => by
        rw [front]
        exact member
      have all : ∀ other ∈ rest, other ∈ t.flushToDiskFutures := fun other member => by
        rw [front]
        exact List.mem_cons_of_mem _ member
      cases run : markFileAsDeprecated e.2.transactionLogFileName t.files with
      | ok u after =>
        rw [run] at marks
        obtain ⟨_, other, same, _, states⟩ := marks.of_ok
        simp only [same]
        exact .ok rfl (Beside.step (t := { t with
          files := after
          memTableQueue := later
          ssTableIndexQueue := { t.ssTableIndexQueue with queue := t.ssTableIndexQueue.queue ++ [index] }
          flushToDiskFutures := t.flushToDiskFutures.tail }) states fun n => taken_later idle front notRunning rests)
      | error x after =>
        rw [run] at marks
        obtain ⟨other, same, states⟩ := marks.of_error
        simp only [same]
        exact .error x (Beside.step (t := { t with
          files := after
          memTableQueue := later
          ssTableIndexQueue := { t.ssTableIndexQueue with queue := t.ssTableIndexQueue.queue ++ [index] } }) states
            fun n => taken_later idle front notRunning all)

/-- A program that ends without a compaction. -/
theorem idle_beside {α : Type} (a : α) (idle : s.ssTableCompactionFuture = none) :
    (Prog.ret a : DbProg α).Mirrored Disturbed Orderly (Beside cfg) (fun _ t => t.ssTableCompactionFuture = none) s :=
  Prog.Mirrored.ret (Q := fun _ (t : ProjectDbImpl) => t.ssTableCompactionFuture = none) idle_stable idle

theorem pass_beside (idle : s.ssTableCompactionFuture = none) :
    pass.Mirrored Disturbed Orderly (Beside cfg) (fun _ t => t.ssTableCompactionFuture = none) s := by
  refine (Prog.Mirrored.atomic idle_stable PolledFlush.stable idle fun t now orderly =>
    ⟨fun polled u run => ?_, fun t' near => takeFlush_beside now orderly near⟩).bind fun polled t now => ?_
  · have ends := takeFlush_effect now
    rw [run] at ends
    exact ends
  cases polled with
  | absent => exact idle_beside _ now
  | pending => exact idle_beside _ now
  | done index =>
    refine Prog.Mirrored.bind (Prog.Mirrored.atomic (Q := fun _ (t : ProjectDbImpl) => t.ssTableCompactionFuture = none)
      (idle_stable.and FlushTaken.stable) (fun _ => idle_stable) now fun u taken orderly =>
        ⟨fun _ x run => ?_, fun u' near => handOver_beside index taken.1 taken.2 orderly near⟩) fun _ u idle => ?_
    · have ends := handOver_effect index taken.1 taken.2
      rw [run] at ends
      exact ends
    · exact idle_beside _ idle

theorem drain_beside (futures : Nat) (idle : s.ssTableCompactionFuture = none) :
    (drain futures).Mirrored Disturbed Orderly (Beside cfg) (fun _ t => t.ssTableCompactionFuture = none) s := by
  induction futures generalizing s with
  | zero => exact idle_beside _ idle
  | succ futures ih =>
    refine (pass_beside idle).bind fun handedOver t now => ?_
    cases handedOver with
    | true => exact ih now
    | false => exact idle_beside _ now

theorem launchCompaction_beside (idle : t.ssTableCompactionFuture = none) (beside : Beside cfg t t') :
    (launchCompaction cfg t).Matches (Beside cfg) Eq (launchCompaction cfg t') := by
  cases beside with
  | intro files agree =>
    have same : SSTableIndexQueue.tryLaunchCompaction cfg { t with files := files } =
        match SSTableIndexQueue.tryLaunchCompaction cfg t with
        | .ok job _ => .ok job { t with files := files }
        | .error e _ => .error e { t with files := files } := by
      simp only [SSTableIndexQueue.tryLaunchCompaction, DbM.current, bind, EStateM.bind]
      split_ifs <;> rfl
    rcases tryLaunchCompaction_eq cfg t with none | ⟨_, some⟩
    · rw [none] at same
      simp only [launchCompaction, bind, EStateM.bind, none, same]
      exact .ok rfl (.intro files agree)
    · rw [some] at same
      simp only [launchCompaction, bind, EStateM.bind, some, same]
      exact .ok rfl (Beside.step (t := { t with ssTableCompactionFuture := _ }) agree fun n half => Or.inl (half.job idle))

theorem checkFlushToDiskFutures_beside (idle : s.ssTableCompactionFuture = none) :
    (checkFlushToDiskFutures cfg).Mirrored Disturbed Orderly (Beside cfg) (fun _ _ => True) s := by
  refine (Prog.Mirrored.read idle_stable (fun _ => idle_stable) idle (fun t t' near => congrArg List.length near.futures)
    fun _ now _ => now).bind fun futures t now => (drain_beside futures now).bind fun _ u still => ?_
  exact Prog.Mirrored.atomic idle_stable (fun _ _ _ _ _ => trivial) still fun x now _ =>
    ⟨fun _ _ _ => trivial, fun x' near => launchCompaction_beside now near⟩

theorem checkFutures_beside (s : ProjectDbImpl) :
    (checkFutures cfg).Mirrored Disturbed Orderly (Beside cfg) (fun _ _ => True) s := by
  refine (checkSSTableCompactionFuture_beside s).bind fun running t ended => ?_
  cases running with
  | true => exact Prog.Mirrored.ret (fun _ _ _ _ => trivial) trivial
  | false => exact checkFlushToDiskFutures_beside (ended rfl)

end Flush

section Calls

/-- Beside one another, in steps of one action that starts in `t`: what was half
written then is, and what the running jobs read is what it was. -/
inductive Along (cfg : Config) (t : ProjectDbImpl) : ProjectDbImpl → ProjectDbImpl → Prop
  | intro (u : ProjectDbImpl) (files : Files) (agree : Agree (fun n => ¬ HalfWritten cfg t n) u.files files)
      (part : u.compactionPart = t.compactionPart) (flushes : t.flushToDiskFutures ⊆ u.flushToDiskFutures)
      (sst : Agree (fun n => n.extension = some .sst) t.files u.files) : Along cfg t u { u with files := files }

theorem Beside.along (beside : Beside cfg t t') : Along cfg t t t' := by
  cases beside with
  | intro files agree => exact .intro t files agree rfl (List.Subset.refl _) fun _ _ => rfl

theorem queueNames_closed (s : ProjectDbImpl) :
    s.queueNames = (s.ssTableIndexQueue.queue.map (·.closed)).map (·.ssTableFileName) := by
  rw [queueNames, List.map_map]
  rfl

theorem Along.beside {u u' : ProjectDbImpl} (along : Along cfg t u u') (orderly : Orderly t) : Beside cfg u u' := by
  cases along with
  | intro files agree part flushes sst =>
    obtain ⟨listed, future⟩ := Prod.mk.inj part
    refine Beside.step agree fun n half => half.later orderly (fun job member _ => flushes member) fun job launched _ => ?_
    refine ⟨future.trans launched, ?_, sst⟩
    rw [queueNames_closed, queueNames_closed]
    exact congrArg (List.map (·.ssTableFileName)) (congrArg Prod.fst listed)

theorem along_change {f : ProjectDbImpl → ProjectDbImpl} (files : ∀ u d, f { u with files := d } = { f u with files := d })
    (part : ∀ u, (f u).compactionPart = u.compactionPart)
    (flushes : ∀ u : ProjectDbImpl, u.flushToDiskFutures ⊆ (f u).flushToDiskFutures) :
    EStateM.Simulates (Along cfg t) Eq (DbM.change f) (DbM.change f) := by
  intro u u' along
  cases along with
  | intro other agree same some sst =>
    have kept : (f u).files = u.files := congrArg (·.files) (files u u.files)
    have after : DbM.change f { u with files := other } = .ok () { f u with files := other } :=
      congrArg (EStateM.Result.ok ()) (files u other)
    rw [after]
    exact .ok rfl (.intro (f u) other (kept ▸ agree) ((part u).trans same) (List.Subset.trans some (flushes u)) (kept ▸ sst))

theorem along_file {α : Type} {op : FileM α} (same : ∀ files other, Agree (fun n => ¬ HalfWritten cfg t n) files other →
      (op files).Matches (Agree fun n => ¬ HalfWritten cfg t n) Eq (op other))
    (sst : ∀ files, Agree (fun n => n.extension = some .sst) files (op.left files)) :
    EStateM.Simulates (Along cfg t) Eq (DbM.file op) (DbM.file op) := by
  intro u u' along
  cases along with
  | intro files agree part flushes kept =>
    have both := same u.files files agree
    have tables (n : FileName) (isSst : n.extension = some .sst) := (sst u.files n isSst).trans (kept n isSst)
    unfold EStateM.left at tables
    unfold DbM.file
    cases run : op u.files with
    | ok a after =>
      rw [run] at both tables
      obtain ⟨b, other, again, rfl, states⟩ := both.of_ok
      simp only [again]
      exact .ok rfl (.intro { u with files := after } other states part flushes tables)
    | error e after =>
      rw [run] at both tables
      obtain ⟨other, again, states⟩ := both.of_error
      simp only [again]
      exact .error e (.intro { u with files := after } other states part flushes tables)

theorem openForAppend_sst {name : FileName} (isLog : name.extension = some .txl) (files : Files) :
    Agree (fun n => n.extension = some .sst) files ((openForAppend name).left files) := by
  intro n isSst
  unfold EStateM.left openForAppend
  cases files.read name with
  | some bytes => rfl
  | none =>
    refine (Directory.read_write ..).trans (if_neg ?_)
    rintro rfl
    rw [isLog] at isSst
    cases isSst

theorem appendFile_sst {name : FileName} (isLog : name.extension = some .txl) (bytes : List Byte) (files : Files) :
    Agree (fun n => n.extension = some .sst) files ((appendFile name bytes).left files) := by
  intro n isSst
  unfold EStateM.left appendFile
  cases files.read name with
  | none => rfl
  | some contents =>
    refine (Directory.read_write ..).trans (if_neg ?_)
    rintro rfl
    rw [isLog] at isSst
    cases isSst

theorem emplaceNew_along (orderly : Orderly t) :
    EStateM.Simulates (Along cfg t) Eq MemTableQueue.emplaceNew MemTableQueue.emplaceNew := by
  have create (table : Table) : EStateM.Simulates (Along cfg t) Eq (MemTable.create table) (MemTable.create table) := by
    intro u u' along
    cases along with
    | intro files agree part flushes sst => exact .ok rfl (.intro _ files agree part flushes sst)
  have writter : EStateM.Simulates (Along cfg t) Eq TransactionLogWritter.create TransactionLogWritter.create := by
    refine EStateM.Simulates.bind (V := Along cfg t) (fun u u' along => .ok along along) fun db db' along => ?_
    have isLog := extension_genTransactionLogFileName db.transactionLogFileCounterBase
    cases along with
    | intro files agree part flushes sst =>
      refine EStateM.Simulates.bind (V := Eq) (fun u u' _ => .ok rfl (.intro _ files agree part flushes sst)) fun _ _ _ => ?_
      refine EStateM.Simulates.bind (V := Eq) (along_file (fun files other agree => openForAppend_agree agree ?_)
        fun files => openForAppend_sst isLog files) fun _ _ _ => .pure rfl
      exact orderly.data (Or.inr isLog)
  refine EStateM.Simulates.bind (create .empty) ?_
  rintro memTable _ rfl
  refine EStateM.Simulates.bind writter ?_
  rintro name _ rfl
  exact along_change (fun _ _ => rfl) (fun _ => rfl) fun _ => List.Subset.refl _

theorem prepare_along (orderly : Orderly t) :
    EStateM.Simulates (Along cfg t) Eq MemTableQueue.prepare MemTableQueue.prepare := by
  refine EStateM.Simulates.bind (V := Along cfg t) (fun u u' along => .ok along along) fun db db' along => ?_
  cases along with
  | intro files =>
    dsimp only
    split_ifs
    · exact emplaceNew_along orderly
    · exact .pure rfl

theorem append_along (fmt : LogFormat) (op : Operation) (orderly : Orderly t) (beside : Beside cfg t t') :
    (MemTableQueue.append fmt op t).Matches (Along cfg t) Eq (MemTableQueue.append fmt op t') := by
  have both := beside.memTables
  simp only [MemTableQueue.append, DbM.current, bind, EStateM.bind]
  rw [both]
  cases last : t.memTableQueue.getLast? with
  | none => exact .error _ beside.along
  | some e =>
    have isLog := orderly.logs e (List.mem_of_getLast? last)
    refine EStateM.Simulates.bind (V := Eq) (along_file (fun files other agree => appendFile_agree agree ?_ _)
      fun files => appendFile_sst isLog _ files) (fun _ _ _ => ?_) t t' beside.along
    · exact orderly.data (Or.inr isLog)
    · exact along_change (fun _ _ => rfl) (fun _ => rfl) fun _ => List.Subset.refl _

theorem launchFlush_along (orderly : Orderly t) :
    EStateM.Simulates (Along cfg t) Eq (launchFlush cfg) (launchFlush cfg) := by
  refine EStateM.Simulates.bind (V := Eq) ?_ ?_
  · refine EStateM.Simulates.bind (V := Along cfg t) (fun u u' along => .ok along along) fun db db' along => ?_
    cases along with
    | intro files =>
      dsimp only
      cases db.memTableQueue.getLast? with
      | none => exact fun u u' along => .error _ along
      | some e =>
        dsimp only
        split_ifs
        · refine EStateM.Simulates.bind (emplaceNew_along orderly) fun _ _ _ => ?_
          refine EStateM.Simulates.bind (V := Eq) (fun u u' along => ?_) fun a b same => .pure (congrArg some same)
          cases along with
          | intro files agree part flushes sst => exact .ok rfl (.intro _ files agree part flushes sst)
        · exact .pure rfl
  · rintro job _ rfl
    cases job with
    | none => exact .pure rfl
    | some job => exact along_change (fun _ _ => rfl) (fun _ => rfl) fun _ => List.subset_append_left ..

theorem getIn_agree (cfg : Config) {A : FileName → Prop} {files other : Files} (agree : Agree A files other) (key : Key)
    {queue : List SSTableIndex} (known : ∀ index ∈ queue, A index.ssTableFileName) :
    SSTableIndexQueue.getIn cfg other key queue = SSTableIndexQueue.getIn cfg files key queue := by
  induction queue with
  | nil => rfl
  | cons index newer ih =>
    have first := agree.getFileStream (known index (List.mem_cons_self ..))
    have opened (keep : Bool) : index.openKept keep other = index.openKept keep files := by
      rw [SSTableIndex.openKept, SSTableIndex.openKept, first]
    have name (keep : Bool) : (index.openKept keep files).ssTableFileName = index.ssTableFileName := by
      unfold SSTableIndex.openKept
      split_ifs <;> rfl
    have sought (keep : Bool) : index.seek keep other key = index.seek keep files key := by
      simp only [SSTableIndex.seek, opened, name, first]
    simp only [SSTableIndexQueue.getIn, ih fun other member => known other (List.mem_cons_of_mem _ member), sought]

theorem get_along (key : StdString) (orderly : Orderly t) (beside : Beside cfg t t') :
    (SSTableIndexQueue.get cfg key t).Matches (Along cfg t) Eq (SSTableIndexQueue.get cfg key t') := by
  cases beside with
  | intro files agree =>
    have finished (index : SSTableIndex) (member : index ∈ t.ssTableIndexQueue.queue) :
        ¬ HalfWritten cfg t index.ssTableFileName := by
      have isSst := orderly.queue index member
      exact orderly.data (Or.inl isSst)
    have same := getIn_agree cfg agree ⟨key⟩ finished
    have closed := getIn_closed cfg t.files ⟨key⟩ t.ssTableIndexQueue.queue
    have along (queue : List SSTableIndex) (opened : queue.map (·.closed) = t.ssTableIndexQueue.queue.map (·.closed)) :
        Along cfg t { t with ssTableIndexQueue := { t.ssTableIndexQueue with queue := queue } }
          { t with files := files, ssTableIndexQueue := { t.ssTableIndexQueue with queue := queue } } :=
      .intro _ files agree
        (congrArg (fun names => ((names, t.ssTableIndexQueue.compactionStartIndex), t.ssTableCompactionFuture)) opened)
        (List.Subset.refl _) fun _ _ => rfl
    simp only [SSTableIndexQueue.get, same]
    cases run : SSTableIndexQueue.getIn cfg t.files ⟨key⟩ t.ssTableIndexQueue.queue with
    | error e queue =>
      rw [run] at closed
      exact .error e (along queue closed)
    | ok answer queue =>
      rw [run] at closed
      exact .ok rfl (along queue closed)

theorem find_along (key : StdString) (orderly : Orderly t) (beside : Beside cfg t t') :
    (find cfg key t).Matches (Along cfg t) Eq (find cfg key t') := by
  have memory : MemTableQueue.get t' key = MemTableQueue.get t key := by
    cases beside
    rfl
  have got := get_along key orderly beside
  simp only [find, DbM.current, bind, EStateM.bind, memory]
  cases MemTableQueue.get t key with
  | some value => exact .ok rfl beside.along
  | none =>
    dsimp only [EStateM.bind]
    cases run : SSTableIndexQueue.get cfg key t with
    | error e u =>
      rw [run] at got
      obtain ⟨u', again, along⟩ := got.of_error
      rw [again]
      exact .error e along
    | ok answer u =>
      rw [run] at got
      obtain ⟨_, u', again, rfl, along⟩ := got.of_ok
      rw [again]
      cases answer <;> exact .ok rfl along

/-- The rule of an action that takes no result of a job. -/
theorem aside_beside {α : Type} {f : DbM α}
    (same : ∀ t t', Orderly t → Beside cfg t t' → (f t).Matches (Along cfg t) Eq (f t')) (s : ProjectDbImpl) :
    (Prog.atomic f).Mirrored Disturbed Orderly (Beside cfg) (fun _ _ => True) s := by
  refine Prog.Mirrored.atomic (P := fun _ => True) (fun _ _ _ _ => trivial) (fun _ _ _ _ _ => trivial) trivial
    fun t _ orderly => ⟨fun _ _ _ => trivial, fun t' beside => (same t t' orderly beside).weaken fun u u' along => ?_⟩
  exact along.beside orderly

theorem write_beside (fmt : LogFormat) (op : Operation) (s : ProjectDbImpl) :
    (write cfg fmt op).Mirrored Disturbed Orderly (Beside cfg) (fun _ _ => True) s := by
  refine (checkFutures_beside s).bind fun _ t _ => ?_
  refine ((aside_beside (fun t t' orderly beside => prepare_along orderly t t' beside.along) t).bind fun _ u _ =>
    aside_beside (fun t t' => append_along fmt op) u).bind fun _ u _ => ?_
  exact aside_beside (fun t t' orderly beside => launchFlush_along orderly t t' beside.along) u

/-- A call does to the state beside, whatever is in the half-written files, what
it does to the state itself. -/
theorem call_beside (fmt : LogFormat) (call : Call) (s : ProjectDbImpl) :
    (call.prog cfg fmt).Mirrored Disturbed Orderly (Beside cfg) (fun _ _ => True) s := by
  have silent (t : ProjectDbImpl) : (pure none : DbProg (Option StdString)).Mirrored Disturbed Orderly (Beside cfg)
      (fun _ _ => True) t := Prog.Mirrored.ret (fun _ _ _ _ => trivial) trivial
  cases call with
  | get key => exact (checkFutures_beside s).bind fun _ t _ => aside_beside (fun t t' => find_along key) t
  | set key value => exact (write_beside fmt (.set key value) s).bind fun _ t _ => silent t
  | remove key => exact (write_beside fmt (.remove key) s).bind fun _ t _ => silent t

end Calls

end ProjectDbImpl
end ProjectDb
