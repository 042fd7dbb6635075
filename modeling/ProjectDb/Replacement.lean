import ProjectDb.Calls

namespace ProjectDb
namespace ProjectDbImpl

variable {cfg : Config} {permit : List SSTable → Nat → Prop} {v : View} {n : Nat} {db next : ProjectDbImpl}

theorem Others.ssTableIndexQueue (step : Others cfg permit db next) : next.ssTableIndexQueue = db.ssTableIndexQueue := by
  obtain ⟨kind, step, _⟩ := step
  exact step.memory.2.2

/-- What `checkSSTableCompactionFuture` does to the queue: it is left alone, or
the window from the start index on has been replaced. -/
inductive Collected (cfg : Config) (permit : List SSTable → Nat → Prop) (v : View) (n : Nat) (db : ProjectDbImpl) :
    Bool → ProjectDbImpl → Prop
  | absent {t : ProjectDbImpl} : db.ssTableCompactionFuture = none → Ready cfg permit v n t →
      t.ssTableCompactionFuture = none → t.ssTableIndexQueue = db.ssTableIndexQueue → Collected cfg permit v n db false t
  | running {t : ProjectDbImpl} : Ready cfg permit v n t → t.ssTableIndexQueue = db.ssTableIndexQueue →
      Collected cfg permit v n db true t
  | replaced {t base : ProjectDbImpl} {job : CompactionJob} {I : Install} : Installable cfg permit v n base job I →
      job.beginIt = db.ssTableIndexQueue.compactionStartIndex → Replaced cfg permit v n I t →
      Collected cfg permit v n db false t

/-- The assertions of this part say nothing of the states in between. -/
abbrev Anywhere : ProjectDbImpl → Prop := fun _ => True

theorem Collected.assertion (running : Bool) :
    Prog.Assertion (Others cfg permit) Anywhere (Collected cfg permit v n db running) where
  stable s t collected step := by
    have lasts : Prog.Assertion (Others cfg permit) Anywhere (Ready cfg permit v n) := Ready.assertion fun _ _ => trivial
    cases collected with
    | absent none ready idle same =>
      exact .absent none (lasts.stable ready step) (step.idle.mpr idle) (step.ssTableIndexQueue.trans same)
    | running ready same => exact .running (lasts.stable ready step) (step.ssTableIndexQueue.trans same)
    | @replaced _ base job I installable begins replaced =>
      have stays : Prog.Assertion (Others cfg permit) Anywhere (Replaced cfg permit v n I) :=
        Replaced.assertion fun _ _ => trivial
      exact .replaced installable begins (stays.stable replaced step)
  within _ _ := trivial

/-- What holds after the poll of the compaction, with what is to be installed. -/
def AfterTake (cfg : Config) (permit : List SSTable → Nat → Prop) (v : View) (n : Nat) (db : ProjectDbImpl) :
    Polled (List SSTableIndex) → ProjectDbImpl → Prop
  | .absent, t => Collected cfg permit v n db false t
  | .pending, t => Collected cfg permit v n db true t
  | .done merged, t => ∃ base job I, (Installable cfg permit v n base job I ∧
      job.beginIt = db.ssTableIndexQueue.compactionStartIndex ∧ merged = I.merged.map Prod.snd) ∧
      I.At base.files (Taken v n) 0 0 ⟨I.before.map Prod.fst, I.below.length⟩ t

theorem AfterTake.assertion (polled : Polled (List SSTableIndex)) :
    Prog.Assertion (Others cfg permit) Anywhere (AfterTake cfg permit v n db polled) := by
  cases polled with
  | absent => exact Collected.assertion false
  | pending => exact Collected.assertion true
  | done merged =>
    refine ⟨?_, fun _ _ => trivial⟩
    rintro s t ⟨base, job, I, known, at_⟩ step
    have asserted : Prog.Assertion (Others cfg permit) Anywhere _ :=
      known.1.assertion (fun _ _ _ => trivial) 0 0 ⟨I.before.map Prod.fst, I.below.length⟩
    exact ⟨base, job, I, known, asserted.stable at_ step⟩

/-- The check for a finished compaction, with what it does to the queue. -/
theorem Ready.collect (ready : Ready cfg permit v n db) :
    (ProjectDbImpl.checkSSTableCompactionFuture cfg).Safe (Others cfg permit) Anywhere (fun _ => False)
      (Collected cfg permit v n db) db := by
  have before : Prog.Assertion (Others cfg permit) Anywhere fun t => Ready cfg permit v n t ∧
      (t.ssTableCompactionFuture = none ↔ db.ssTableCompactionFuture = none) ∧
        t.ssTableIndexQueue = db.ssTableIndexQueue :=
    (Ready.assertion fun _ _ => trivial).and fun s t same step =>
      ⟨step.idle.trans same.1, step.ssTableIndexQueue.trans same.2⟩
  refine Prog.Safe.bind (Prog.Safe.atomic (Q := AfterTake cfg permit v n db) before AfterTake.assertion
    ⟨ready, Iff.rfl, rfl⟩ ?_) ?_
  · rintro t ⟨now, same, queue⟩
    rcases now.inv.takeCompaction with ⟨idle, run⟩ | ⟨_, run⟩ |
      ⟨job, I, _, positive, run, compacted, begins, permitted⟩
    · exact ⟨_, _, run, .absent (same.mp idle) now idle queue⟩
    · exact ⟨_, _, run, .running now queue⟩
    · exact ⟨_, _, run, t, job, I, ⟨⟨compacted, now.inv.shelved, compacted.named now.inv, positive, permitted⟩,
        begins.trans (congrArg _ queue), rfl⟩, compacted.begin now begins⟩
  · intro polled t after
    cases polled with
    | absent => exact Prog.Safe.ret (Collected.assertion false) after
    | pending => exact Prog.Safe.ret (Collected.assertion true) after
    | done merged =>
      obtain ⟨base, job, I, ⟨installable, begins, rfl⟩, at_⟩ := after
      refine (installable.replace (fun _ _ _ => trivial) (fun _ _ _ => trivial) at_).mono fun running u ended => ?_
      obtain ⟨rfl, replaced⟩ := ended
      exact .replaced installable begins replaced

end ProjectDbImpl
end ProjectDb
