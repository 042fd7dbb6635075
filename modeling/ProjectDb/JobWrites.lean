import ProjectDb.BesideCalls
import ProjectDb.Linearization
import ProjectDb.NewFiles
import ProjectDb.QueueInvariant

namespace ProjectDb

theorem OnDisk.agree {files other : Files} {queue : List SSTableIndex} {xs : List Indexed} (onDisk : OnDisk files queue xs)
    (agree : Agree (fun n => n ∈ queue.map (·.ssTableFileName)) files other) : OnDisk other queue xs where
  queue := onDisk.queue
  holds x member := (onDisk.holds x member).frame (agree _ (by
    rw [← onDisk.queue]
    exact List.mem_map_of_mem (List.mem_map_of_mem member)))
  names := onDisk.names

namespace ProjectDbImpl

variable {cfg : Config} {fmt : LogFormat} {permit : List SSTable → Nat → Prop} {s t t' u u' start db : ProjectDbImpl}
  {n : FileName} {v : View} {x : Store} {c : Counters} {call : Call} {rest : DbProg (Option StdString)}

section Steps

/-- The tables of the queue have been written. -/
theorem Orderly.written (orderly : Orderly t) : ∀ m ∈ t.queueNames, ¬ HalfWritten cfg t m := by
  intro m member
  obtain ⟨index, queued, rfl⟩ := List.mem_map.mp member
  exact orderly.data (Or.inl (orderly.queue index queued))

/-- What is half written in the state beside is half written in the state. -/
theorem Beside.halfWritten (beside : Beside cfg t t') (orderly : Orderly t) (half : HalfWritten cfg t' n) :
    HalfWritten cfg t n := by
  cases beside with
  | intro files agree =>
    rcases half with ⟨job, member, running, same⟩ | ⟨job, out, left, launched, running, run, listed⟩
    · exact Or.inl ⟨job, member, running, same⟩
    · obtain ⟨again, merge, _⟩ := compact_agree (s := { t with files := files }) (t := t) agree.symm rfl
        orderly.written run
      exact Or.inr ⟨job, out, again, launched, running, merge, listed⟩

/-- Once its file has been written, a flush job has nothing to finish. -/
theorem HalfWritten.flushed {before after : List FlushJob} {job : FlushJob} {index : SSTableIndex} {files : Files}
    (half : HalfWritten cfg t n) (orderly : Orderly t) (split : t.flushToDiskFutures = before ++ job :: after)
    (running : job.future = .running)
    (write : writeSSTable cfg.ssTableIndexBlockSizeInBytes (t.flushedTable job) job.fileName t.files = .ok index files) :
    n = job.fileName ∨ HalfWritten cfg { t with
      files := files
      flushToDiskFutures := before ++ { job with future := .ready (.ok index) } :: after } n := by
  by_cases same : n = job.fileName
  · exact Or.inl same
  refine Or.inr ?_
  have isIp := orderly.running job (by rw [split]; simp) running
  obtain ⟨_, _, written⟩ := writeSSTable_spec write
  rcases half with ⟨other, member, still, named⟩ | ⟨other, out, left, launched, still, run, listed⟩
  · refine Or.inl ⟨other, ?_, still, named⟩
    rw [split] at member
    rcases List.mem_append.mp member with low | high
    · exact List.mem_append_left _ low
    · rcases List.mem_cons.mp high with rfl | high
      · exact absurd named.symm same
      · exact List.mem_append_right _ (List.mem_cons_of_mem _ high)
  · have kept : Agree (fun n => n.extension = some .sst) t.files files := by
      intro m isSst
      rw [written, Directory.read_write, if_neg]
      rintro rfl
      rw [isIp] at isSst
      cases isSst
    obtain ⟨again, merge, _⟩ := compact_agree (t := { t with
        files := files
        flushToDiskFutures := before ++ { job with future := .ready (.ok index) } :: after }) kept rfl (fun m member => by
      obtain ⟨index, queued, rfl⟩ := List.mem_map.mp member
      exact orderly.queue index queued) run
    exact Or.inr ⟨other, out, again, launched, still, merge, listed⟩

/-- A step of jobs that write bit by bit is, but for the half-written files, a
step of jobs or none. -/
theorem Working.others (orderly : Orderly t) (beside : Beside cfg t t') (step : Working cfg permit t' u') :
    ∃ u, Relation.ReflTransGen (Others cfg permit) t u ∧ Beside cfg u u' := by
  cases step with
  | @writing n bytes half =>
    have started := beside.halfWritten orderly half
    cases beside with
    | intro files agree =>
      refine ⟨t, .refl, .intro (files.write n bytes) fun m finished => ?_⟩
      rw [Directory.read_write, if_neg fun same : m = n => finished (same ▸ started)]
      exact agree m finished
  | finishing others =>
    obtain ⟨kind, step, permitted⟩ := others
    cases beside with
    | intro files agree =>
      cases step with
      | tick _ now =>
        exact ⟨{ t with now := now }, .single ⟨.tick, .tick t now, by simp⟩,
          Beside.step (t := { t with now := now }) agree fun _ half => half⟩
      | @clean _ name running deprecated =>
        have kept : Agree (fun n => n.extension = some .sst) t.files (t.files.remove name) := by
          intro m isSst
          rw [Directory.read_remove, if_neg]
          rintro rfl
          rw [isSst] at deprecated
          cases deprecated
        exact ⟨{ t with files := t.files.remove name }, .single ⟨.clean, .clean running deprecated, by simp⟩,
          Beside.step (t := { t with files := t.files.remove name }) (agree.remove name) fun _ half =>
            half.later orderly (fun _ member _ => member) fun _ launched _ => ⟨launched, rfl, kept⟩⟩
      | @flush _ before after job index left split running write =>
        obtain ⟨_, _, written⟩ := writeSSTable_spec write
        have total := (writeSSTable_eq cfg.ssTableIndexBlockSizeInBytes (t.flushedTable job) job.fileName t.files).2
        have same := (writeSSTable_eq cfg.ssTableIndexBlockSizeInBytes (t.flushedTable job) job.fileName files).2
        have again : writeSSTable cfg.ssTableIndexBlockSizeInBytes (t.flushedTable job) job.fileName t.files =
            .ok index (t.files.write job.fileName (t.flushedTable job).serialized) := by
          rw [total]
          change writeSSTable cfg.ssTableIndexBlockSizeInBytes (t.flushedTable job) job.fileName files = _ at write
          rw [same] at write
          split_ifs at write ⊢
          cases write
          rfl
        refine ⟨_, .single ⟨.flush, .flush split running again, by simp⟩, Beside.intro left fun m finished => ?_⟩
        subst written
        change (Directory.write files job.fileName _).read m = (Directory.write t.files job.fileName _).read m
        rw [Directory.read_write, Directory.read_write]
        split_ifs with here
        · rfl
        · exact agree m fun half => (half.flushed orderly split running again).elim here finished
      | @compaction _ job merged left launched running merge =>
        obtain ⟨after, again, kept⟩ := compact_agree (s := { t with files := files }) (t := t) agree.symm rfl
          orderly.written merge
        have permits : ∀ xs, OnDisk t.files t.ssTableIndexQueue.queue xs →
            permit (xs.map Prod.snd) t.ssTableIndexQueue.compactionStartIndex := fun xs onDisk =>
          permitted rfl xs (onDisk.agree (agree.mono fun m member => orderly.written m member))
        refine ⟨_, .single ⟨.compaction, .compaction launched running again, fun _ => permits⟩,
          Beside.intro left fun m finished => ?_⟩
        by_cases listed : m ∈ merged.map (·.ssTableFileName)
        · exact (kept m (Or.inl listed)).symm
        · refine (kept m (Or.inr ?_)).symm
          rintro (flushing | ⟨other, out, files', same, still, run, written⟩)
          · exact finished (Or.inl flushing)
          · rw [launched] at same
            cases same
            rw [again] at run
            cases run
            exact listed written

end Steps
section Names

/-- A job that is running, or has a result, has not been waited for. -/
theorem Flushing.pending (flushing : Flushing v t) {job : FlushJob} (member : job ∈ t.flushToDiskFutures)
    (notTaken : job.future ≠ .consumed) : job ∈ t.pendingJobs v := by
  rw [← List.take_append_drop v.taken t.flushToDiskFutures] at member
  exact (List.mem_append.mp member).resolve_left fun taken => notTaken (flushing.taken job taken)

/-- No two pending jobs write to one file. -/
theorem Flushing.alone (flushing : Flushing v t) {job other : FlushJob} (member : job ∈ t.pendingJobs v)
    (listed : other ∈ t.pendingJobs v) (same : other.fileName = job.fileName) : other = job := by
  have distinct : ((t.pendingJobs v).map (·.fileName.counter)).Nodup :=
    (List.pairwise_append.mp flushing.order).2.1.imp fun below => below.ne
  exact List.inj_on_of_nodup_map distinct listed member (congrArg FileName.counter same)

theorem Flushing.orderly (flushing : Flushing v t) (logging : Logging v t)
    (queue : ∀ index ∈ t.ssTableIndexQueue.queue, index.ssTableFileName.extension = some .sst)
    (merged : ∀ job out, t.ssTableCompactionFuture = some job → job.future = .ready (.ok out) →
      ∀ index ∈ out, index.ssTableFileName.extension = some .merged) : Orderly t := by
  have pending (job : FlushJob) (member : job ∈ t.flushToDiskFutures) (running : job.future = .running) :
      job ∈ t.pendingJobs v := flushing.pending member (by rw [running]; exact fun same => by cases same)
  refine ⟨queue, fun e member => ?_, fun job member running => ?_,
    fun job member index ready other listed running same => ?_, merged⟩
  · have named : e.2.transactionLogFileName ∈ v.logs.map fun l => genTransactionLogFileName l.1 :=
      logging.names ▸ List.mem_map_of_mem member
    obtain ⟨l, _, generated⟩ := List.mem_map.mp named
    rw [← generated]
    exact extension_genTransactionLogFileName l.1
  · rw [flushing.named job (pending job member running)]
    exact FileName.extension_add ..
  · have waits := flushing.pending member (by rw [ready]; exact fun same => by cases same)
    rcases flushing.sound job waits with still | ⟨index', _, done, named, _⟩
    · rw [ready] at still
      cases still
    · rw [ready] at done
      cases done
      have one := flushing.alone waits (pending other listed running) (same.trans named)
      rw [one, ready] at running
      cases running

theorem Inv.orderly (inv : Inv cfg permit v t) : Orderly t := by
  refine inv.flushing.orderly inv.logging (fun index member => ?_) fun job out launched ready index member => ?_
  · rw [← inv.shelved.queue] at member
    obtain ⟨y, queued, rfl⟩ := List.mem_map.mp member
    exact inv.shelved.sst (List.mem_append_left _ queued)
  · obtain ⟨_, _, _, _, running | ⟨I, done, compacted, _⟩⟩ := inv.compacting job launched
    · rw [ready] at running
      cases running
    · rw [ready] at done
      cases done
      obtain ⟨m, written, rfl⟩ := List.mem_map.mp member
      obtain ⟨_, _, _, named⟩ := compacted.merged m written
      rw [named]
      exact FileName.extension_add ..

/-- While a compaction is being installed the queue is known by the counters of its names. -/
theorem Shows.orderly (shows : Shows cfg fmt permit x v t) (numbered : Numbered c t) : Orderly t := by
  by_cases taken : t.CompactionTaken
  · refine shows.flushing.orderly shows.logging (fun index member => ?_) fun job out launched ready => ?_
    · obtain ⟨k, _, same⟩ := numbered.queue index member
      rw [same]
      rfl
    · obtain ⟨other, same, consumed⟩ := taken
      rw [launched] at same
      cases same
      rw [ready] at consumed
      cases consumed
  · exact (shows.tables taken).1.orderly

end Names

section Sessions

/-- The calls on a database among jobs that write bit by bit. -/
inductive WorkingSession (cfg : Config) (fmt : LogFormat) (permit : List SSTable → Nat → Prop) (start : ProjectDbImpl) :
    List Event → ProjectDbImpl → Prop
  | opened : WorkingSession cfg fmt permit start [] start
  | job {events : List Event} {db next : ProjectDbImpl} : WorkingSession cfg fmt permit start events db →
      Working cfg permit db next → WorkingSession cfg fmt permit start events next
  | returned {events : List Event} {db next : ProjectDbImpl} {call : Call} {answer : Option StdString} :
      WorkingSession cfg fmt permit start events db → db.Bounded →
      Prog.Reaches (Working cfg permit) (call.prog cfg fmt) db (.ret answer) next →
      WorkingSession cfg fmt permit start (events ++ [(call, .ok answer)]) next
  | threw {events : List Event} {db next : ProjectDbImpl} {call : Call} {e : Exn} :
      WorkingSession cfg fmt permit start events db → db.Bounded →
      Prog.Reaches (Working cfg permit) (call.prog cfg fmt) db (.throw e) next →
      WorkingSession cfg fmt permit start (events ++ [(call, .error e)]) next

theorem Beside.bounded (beside : Beside cfg t t') (bounded : t'.Bounded) : t.Bounded := by
  cases beside
  exact bounded

/-- The names are in order wherever a call gets. -/
theorem Represents.orderly (represents : Represents cfg fmt permit x v db) (numbered : Numbered c db) (bounded : db.Bounded)
    (path : Prog.Reaches (Others cfg permit) (call.prog cfg fmt) db rest u) : Orderly u := by
  have named : ∃ d, Numbered d u := by
    have meets := (call_numbers fmt call numbered bounded).reaches path
    cases rest with
    | ret answer =>
      obtain ⟨d, _, _, _, now⟩ := meets u .refl
      exact ⟨d, now⟩
    | throw e =>
      obtain ⟨d, _, _, _, now⟩ := meets u .refl
      exact ⟨d, now⟩
    | act update next =>
      obtain ⟨⟨d, _, now, _⟩, _⟩ := meets u .refl
      exact ⟨d, now⟩
  obtain ⟨d, numbered⟩ := named
  rcases (represents.commits bounded call).reaches path with unwritten | written
  · obtain ⟨y, w, _, shows⟩ := unwritten.now
    exact shows.orderly numbered
  · obtain ⟨y, w, _, shows⟩ := written.now
    exact shows.orderly numbered

/-- A call among jobs that write bit by bit is one among jobs, but for the half-written files. -/
theorem Represents.working (represents : Represents cfg fmt permit x v db) (numbered : Numbered c db) (bounded : db.Bounded)
    (beside : Beside cfg db s') (path : Prog.Reaches (Working cfg permit) (call.prog cfg fmt) s' rest t') :
    ∃ t, Prog.Reaches (Others cfg permit) (call.prog cfg fmt) db rest t ∧ Beside cfg t t' ∧ Orderly t := by
  have mirrored : (call.prog cfg fmt).Mirrored (Others cfg permit) Orderly (Beside cfg) (fun _ _ => True) db :=
    (call_beside fmt call db).restrict (fun _ _ step => step.disturbed) fun _ orderly => orderly
  obtain ⟨t, reached, near⟩ := mirrored.reaches (fun q u path => represents.orderly numbered bounded path)
    (fun u u' w' orderly near step => step.others orderly near) beside path
  exact ⟨t, reached, near, represents.orderly numbered bounded reached⟩

theorem Session.working {events : List Event} (session : Session cfg fmt permit start events db)
    (represents : Represents cfg fmt permit x v start) (bounded : db.Bounded) (beside : Beside cfg db s')
    (path : Prog.Reaches (Working cfg permit) (call.prog cfg fmt) s' rest t') :
    ∃ t, Prog.Reaches (Others cfg permit) (call.prog cfg fmt) db rest t ∧ Beside cfg t t' ∧ Orderly t := by
  obtain ⟨_, _, _, now⟩ := session.storeRun represents
  obtain ⟨_, _, numbered⟩ := session.numbered represents.inv.numbered
  exact now.working numbered bounded beside path

theorem WorkingSession.session {events : List Event} {db' : ProjectDbImpl}
    (session : WorkingSession cfg fmt permit start events db') (represents : Represents cfg fmt permit x v start) :
    ∃ db, Session cfg fmt permit start events db ∧ Beside cfg db db' := by
  induction session with
  | opened => exact ⟨start, .opened, .intro start.files fun _ _ => rfl⟩
  | job _ step ih =>
    obtain ⟨db, session, beside⟩ := ih
    obtain ⟨_, _, _, now⟩ := session.storeRun represents
    obtain ⟨u, steps, near⟩ := step.others now.inv.orderly beside
    refine ⟨u, ?_, near⟩
    clear near
    induction steps with
    | refl => exact session
    | tail _ step ih => exact ih.job step
  | returned _ bounded path ih =>
    obtain ⟨db, session, beside⟩ := ih
    obtain ⟨u, reached, near, _⟩ := session.working represents (beside.bounded bounded) beside path
    exact ⟨u, session.returned (beside.bounded bounded) reached, near⟩
  | threw _ bounded path ih =>
    obtain ⟨db, session, beside⟩ := ih
    obtain ⟨u, reached, near, _⟩ := session.working represents (beside.bounded bounded) beside path
    exact ⟨u, session.threw (beside.bounded bounded) reached, near⟩

end Sessions
end ProjectDbImpl
end ProjectDb
