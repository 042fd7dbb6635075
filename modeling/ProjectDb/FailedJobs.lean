import ProjectDb.Isolation
import ProjectDb.SessionAnswers

namespace ProjectDb
namespace ProjectDbImpl

variable {cfg : Config} {fmt : LogFormat} {db db' s t : ProjectDbImpl}

/-- The states that any calls and any steps of jobs lead to. -/
inductive Later (cfg : Config) (fmt : LogFormat) (db : ProjectDbImpl) : ProjectDbImpl → Prop
  | now : Later cfg fmt db db
  | disturbed {t u : ProjectDbImpl} : Later cfg fmt db t → Disturbed t u → Later cfg fmt db u
  | returned {t u : ProjectDbImpl} {call : Call} {answer : Option StdString} : Later cfg fmt db t →
      Prog.Reaches Disturbed (call.prog cfg fmt) t (.ret answer) u → Later cfg fmt db u
  | threw {t u : ProjectDbImpl} {call : Call} {e : Exn} : Later cfg fmt db t →
      Prog.Reaches Disturbed (call.prog cfg fmt) t (.throw e) u → Later cfg fmt db u

/-- The newest entry of a key is in a MemTable, or in an SSTable that can be read. -/
def Stored (cfg : Config) (db : ProjectDbImpl) (key : StdString) (value : Value) : Prop :=
  MemTableQueue.get db key = some value ∨
    MemTableQueue.get db key = none ∧ ∃ after, SSTableIndexQueue.get cfg key db = .ok (some value) after

/-- What is asked of the calls after a failure has been reported: they do not
fail on a future that has been consumed, and `get` returns what is stored unless
it reports a failure of its own. -/
structure Recovers (cfg : Config) (fmt : LogFormat) (db : ProjectDbImpl) : Prop where
  once : ∀ t, Later cfg fmt db t → ∀ call u, (Call.prog cfg fmt call).run t ≠ .error .futureError u
  answers : ∀ t, Later cfg fmt db t → ∀ key value, Stored cfg t key value →
    (∃ u, (get cfg key).run t = .ok value.underlyingValue u) ∨
      ∃ e u, (get cfg key).run t = .error e u ∧ e ≠ .futureError

section Wedged

/-- What a program comes to that fails on a consumed future. -/
abbrev Fails {α : Type} (p : DbProg α) (s : ProjectDbImpl) : Prop :=
  p.Meets Disturbed (fun _ _ => True) (fun _ _ => False) (fun e t => e = .futureError ∧ t.Wedged) s

theorem Fails.bind {α β : Type} {p : DbProg α} {f : α → DbProg β} (fails : Fails p s) : Fails (p >>= f) s :=
  Prog.Meets.bind fails fun _ _ => False.elim

theorem Fails.atomic {α : Type} {f : DbM α} {P : ProjectDbImpl → Prop} (stable : Prog.Stable Disturbed P) (holds : P s)
    (wedged : ∀ t, P t → t.Wedged) (run : ∀ t, P t → f t = .error .futureError t) : Fails (.atomic f) s := by
  refine Prog.Meets.atomic stable (fun _ _ _ impossible _ => impossible)
    (fun _ _ _ failed step => ⟨failed.1, Wedged.stable failed.2 step⟩) holds fun t now => ⟨trivial, ?_⟩
  rw [run t now]
  exact ⟨rfl, wedged t now⟩

theorem pass_fails (idle : s.ssTableCompactionFuture = none) (taken : s.FlushTaken) : Fails pass s :=
  Fails.bind (Fails.atomic (idle_stable.and FlushTaken.stable) ⟨idle, taken⟩ (fun _ => Or.inr) fun _ now => by
    obtain ⟨_, job, rest, front, consumed⟩ := now
    exact takeFlush_consumed front consumed)

/-- The loop has at least one pass, in which it fails. -/
theorem checkFlushToDiskFutures_fails (idle : s.ssTableCompactionFuture = none) (taken : s.FlushTaken) :
    Fails (checkFlushToDiskFutures cfg) s := by
  refine Prog.Meets.bind (Prog.Meets.read
    (Q := fun futures t => futures ≠ 0 ∧ t.ssTableCompactionFuture = none ∧ t.FlushTaken) (fun _ => trivial)
    (idle_stable.and FlushTaken.stable) (fun _ _ _ holds step => ⟨holds.1,
      idle_stable holds.2.1 step, FlushTaken.stable holds.2.2 step⟩) ⟨idle, taken⟩ fun t now => ⟨?_, now⟩)
    fun futures t now => ?_
  · obtain ⟨job, rest, front, _⟩ := now.2
    rw [front]
    exact Nat.succ_ne_zero _
  · obtain ⟨some, idle, taken⟩ := now
    cases futures with
    | zero => contradiction
    | succ futures => exact (pass_fails idle taken).bind.bind

/-- Without a compaction the check of the compaction finds nothing. -/
theorem checkSSTableCompactionFuture_idle {P : ProjectDbImpl → Prop} {T : Exn → ProjectDbImpl → Prop}
    (stable : Prog.Stable Disturbed P) (broken : ∀ e, Prog.Stable Disturbed (T e))
    (idle : ∀ t, P t → t.ssTableCompactionFuture = none) (holds : P s) :
    (checkSSTableCompactionFuture cfg).Meets Disturbed (fun _ _ => True) (fun running t => running = false ∧ P t) T s := by
  have after {β : Type} (p : β → Prop) (b : β) : Prog.Stable Disturbed fun t => p b ∧ P t :=
    fun _ _ now step => ⟨now.1, stable now.2 step⟩
  refine Prog.Meets.bind (Prog.Meets.atomic (Q := fun polled t => polled = .absent ∧ P t) stable
    (after (· = Polled.absent)) broken holds fun t now => ⟨trivial, ?_⟩) fun polled t now => ?_
  · rw [takeCompaction_absent (idle t now)]
    exact ⟨rfl, now⟩
  · obtain ⟨rfl, now⟩ := now
    exact Prog.Meets.ret (after (· = false) false) ⟨rfl, now⟩

/-- A check of the futures fails as soon as one of them has been consumed. -/
theorem Wedged.checkFutures (wedged : s.Wedged) : Fails (ProjectDbImpl.checkFutures cfg) s := by
  rcases wedged with taken | ⟨idle, taken⟩
  · refine (Fails.bind (Fails.atomic CompactionTaken.stable taken (fun _ => Or.inl) fun _ now => ?_)).bind
    obtain ⟨job, launched, consumed⟩ := now
    exact takeCompaction_consumed launched consumed
  · refine (checkSSTableCompactionFuture_idle (idle_stable.and FlushTaken.stable)
      (fun _ _ _ failed step => ⟨failed.1, Wedged.stable failed.2 step⟩) (fun _ now => now.1) ⟨idle, taken⟩).bind
      fun running t now => ?_
    obtain ⟨rfl, idle, taken⟩ := now
    exact checkFlushToDiskFutures_fails idle taken

theorem Wedged.call (wedged : s.Wedged) (call : Call) : Fails (call.prog cfg fmt) s := by
  cases call with
  | get key => exact wedged.checkFutures.bind
  | set key value => exact wedged.checkFutures.bind.bind
  | remove key => exact wedged.checkFutures.bind.bind

/-- No call and no step of a job removes the consumed future. -/
theorem Wedged.later (wedged : s.Wedged) (later : Later cfg fmt s t) : t.Wedged := by
  induction later with
  | now => exact wedged
  | disturbed _ step ih => exact Wedged.stable ih step
  | @returned t u call answer _ path ih =>
    exact ((ih.call call).reaches path u .refl).elim
  | @threw t u call e _ path ih =>
    exact ((ih.call call).reaches path u .refl).2

end Wedged

/-- Once a call has reported a failure, of a job or of what is done with its
result, all later calls throw and none returns, whatever the database stores. -/
theorem failure_wedges {e : Exn} (reported : Prog.Reaches Disturbed (checkFutures cfg) db (.throw e) db') :
    ¬ Recovers cfg fmt db' ∧ ∀ t, Later cfg fmt db' t → ∀ call : Call,
      (∃ u, (call.prog cfg fmt).run t = .error .futureError u) ∧
        (∀ answer u, ¬ Prog.Reaches Disturbed (call.prog cfg fmt) t (.ret answer) u) ∧
        ∀ e u, Prog.Reaches Disturbed (call.prog cfg fmt) t (.throw e) u → e = .futureError := by
  have wedged : db'.Wedged := (checkFutures_meets db).reaches reported db' .refl
  have throws (t : ProjectDbImpl) (later : Later cfg fmt db' t) (call : Call) :
      ∃ u, (call.prog cfg fmt).run t = .error .futureError u := by
    have fails : Fails (call.prog cfg fmt) t := (wedged.later later).call call
    obtain ⟨_, u, run, rfl, _⟩ := fails.throws
    exact ⟨u, run⟩
  refine ⟨fun recovers => ?_, fun t later call => ⟨throws t later call, fun answer u path => ?_, fun e u path => ?_⟩⟩
  · obtain ⟨u, run⟩ := throws db' .now (.get ⟨[], by decide⟩)
    exact recovers.once db' .now _ u run
  · exact ((wedged.later later).call call).reaches path u .refl
  · exact (((wedged.later later).call call).reaches path u .refl).1

section Sample

/-- The oldest flush job ends with an exception of its stream. -/
def failFlush (db : ProjectDbImpl) : Option ProjectDbImpl :=
  match db.flushToDiskFutures with
  | [] => none
  | job :: rest =>
    match job.future with
    | .running => some { db with
        flushToDiskFutures := { job with future := .ready (.error (.dbException "Invalid stream encountered!")) } :: rest }
    | _ => none

theorem failFlush_disturbed (fails : failFlush s = some t) : Disturbed s t := by
  cases futures : s.flushToDiskFutures with
  | nil => simp [failFlush, futures] at fails
  | cons job rest =>
    cases running : job.future with
    | running =>
      simp only [failFlush, futures, running, Option.some.injEq] at fails
      subst fails
      exact @Disturbed.flush s [] rest job s.files _ futures running
    | ready => simp [failFlush, futures, running] at fails
    | consumed => simp [failFlush, futures, running] at fails

/-- A key is set, its flush fails, and the futures are checked: the states before
and after the check. -/
def playFailure (cfg : Config) (fmt : LogFormat) : Option (ProjectDbImpl × ProjectDbImpl) := do
  let (_, db) ← (((Call.set sampleKey oldString).prog cfg fmt).run (opened cfg fmt)).ok?
  let failed ← failFlush db
  match (checkFutures cfg).run failed with
  | .error e next =>
    if e = .dbException "Invalid stream encountered!" ∧ MemTableQueue.get next sampleKey = some oldValue then
      some (failed, next)
    else none
  | .ok _ _ => none

theorem playFailure_some (played : playFailure cfg fmt = some (db, db')) :
    Later cfg fmt (opened cfg fmt) db ∧
      (checkFutures cfg).run db = .error (.dbException "Invalid stream encountered!") db' ∧
      MemTableQueue.get db' sampleKey = some oldValue := by
  simp only [playFailure, Option.bind_eq_bind, Option.bind_eq_some_iff, Prod.exists, EStateM.Result.ok?_eq_some] at played
  obtain ⟨answer, next, set, failed, fails, check⟩ := played
  have later := Later.disturbed (.returned .now (Prog.reaches_returns set)) (failFlush_disturbed fails)
  cases run : (checkFutures cfg).run failed with
  | ok _ u =>
    rw [run] at check
    contradiction
  | error e u =>
    rw [run] at check
    dsimp only at check
    split_ifs at check with holds
    cases check
    exact ⟨later, holds.1 ▸ run, holds.2⟩

theorem failure_wedges_sample : ∃ db db',
    (checkFutures sessionConfig).run db = .error (.dbException "Invalid stream encountered!") db' ∧
      ¬ Recovers sessionConfig transactionLog db' := by
  have possible : (playFailure sessionConfig transactionLog).isSome = true := by decide +kernel
  obtain ⟨⟨db, db'⟩, played⟩ := Option.isSome_iff_exists.mp possible
  obtain ⟨_, run, _⟩ := playFailure_some played
  exact ⟨db, db', run, (failure_wedges (Prog.reaches_throws run)).1⟩

/-- After one failed flush `get` does not return an entry that is in a MemTable. -/
theorem failed_flush_wedges : ∃ db db',
    Later sessionConfig transactionLog (opened sessionConfig transactionLog) db ∧
      (get sessionConfig sampleKey).run db = .error (.dbException "Invalid stream encountered!") db' ∧
      Stored sessionConfig db' sampleKey oldValue ∧
      (∃ u, (get sessionConfig sampleKey).run db' = .error .futureError u) ∧
      ¬ Recovers sessionConfig transactionLog db' := by
  have possible : (playFailure sessionConfig transactionLog).isSome = true := by decide +kernel
  obtain ⟨⟨db, db'⟩, played⟩ := Option.isSome_iff_exists.mp possible
  obtain ⟨later, run, stored⟩ := playFailure_some played
  have wedged : db'.Wedged := (checkFutures_meets db).reaches (Prog.reaches_throws run) db' .refl
  have fails : Fails ((Call.get sampleKey).prog sessionConfig transactionLog) db' := wedged.call (.get sampleKey)
  obtain ⟨_, u, again, rfl, _⟩ := fails.throws
  refine ⟨db, db', later, ?_, Or.inl stored, ⟨u, again⟩, fun recovers => recovers.once db' .now _ u again⟩
  rw [get, Prog.run_bind, run]

end Sample
end ProjectDbImpl
end ProjectDb
