import ProjectDb.Compaction

namespace ProjectDb
namespace SSTableIndexQueue

/-- A job is launched exactly when more tables than the setting stand from the
start index on, and its range has two tables or more and lies inside the queue. -/
structure LaunchesInside (cfg : Config) (db : ProjectDbImpl) : Prop where
  launched : (∃ job, tryLaunchCompaction cfg db = .ok (some job) db) ↔
    0 < cfg.numSSTableToCompact.toNat ∧
      db.ssTableIndexQueue.compactionStartIndex + cfg.numSSTableToCompact.toNat < db.ssTableIndexQueue.queue.length
  inside : ∀ job, tryLaunchCompaction cfg db = .ok (some job) db →
    job.beginIt + 2 ≤ job.endIt ∧ job.endIt ≤ db.ssTableIndexQueue.queue.length

section Guard
variable {cfg : Config} {db : ProjectDbImpl}

/-- The setting from 2^31 on is negative in its cast, and the guard, which
compares it with a number not below -1, lets every queue pass. -/
theorem launches_iff (few : db.ssTableIndexQueue.queue.length < 2 ^ 31)
    (start : db.ssTableIndexQueue.compactionStartIndex = 0 ∨
      db.ssTableIndexQueue.compactionStartIndex < db.ssTableIndexQueue.queue.length) :
    (∃ job, tryLaunchCompaction cfg db = .ok (some job) db) ↔
      0 < cfg.numSSTableToCompact.toNat ∧ (2 ^ 31 ≤ cfg.numSSTableToCompact.toNat ∨
        db.ssTableIndexQueue.compactionStartIndex + cfg.numSSTableToCompact.toNat <
          db.ssTableIndexQueue.queue.length) := by
  have setting := cfg.numSSTableToCompact.toNat_lt
  unfold tryLaunchCompaction
  simp only [DbM.current, bind, EStateM.bind]
  by_cases off : cfg.numSSTableToCompact = 0
  · simp [off, pure, EStateM.pure]
  · have positive : cfg.numSSTableToCompact.toNat ≠ 0 := fun zero => off (UInt32.toNat_inj.mp zero)
    rw [if_neg off]
    by_cases less : ((db.ssTableIndexQueue.queue.length : Int) - db.ssTableIndexQueue.compactionStartIndex - 1).bmod
        (2 ^ 32) < (cfg.numSSTableToCompact.toNat : Int).bmod (2 ^ 32)
    · rw [if_pos less]
      simp only [Int.bmod_def] at less
      constructor
      · rintro ⟨job, run⟩
        cases run
      · intro enough
        omega
    · rw [if_neg less]
      simp only [Int.bmod_def] at less
      exact ⟨fun _ => by omega, fun _ => ⟨_, rfl⟩⟩

/-- The range of a job goes from the start index to the setting behind it. -/
theorem range_of_launch {job : CompactionJob} (launch : tryLaunchCompaction cfg db = .ok (some job) db) :
    job.beginIt + 2 ≤ job.endIt ∧
      job.endIt = db.ssTableIndexQueue.compactionStartIndex + cfg.numSSTableToCompact.toNat + 1 := by
  obtain ⟨_, positive, rfl⟩ := tryLaunchCompaction_some launch
  exact ⟨by simp only [windowJob]; omega, rfl⟩

/-- A launch is right for a queue exactly when the setting is below 2^31. -/
theorem launchesInside_iff (few : db.ssTableIndexQueue.queue.length < 2 ^ 31)
    (start : db.ssTableIndexQueue.compactionStartIndex = 0 ∨
      db.ssTableIndexQueue.compactionStartIndex < db.ssTableIndexQueue.queue.length) :
    LaunchesInside cfg db ↔ cfg.numSSTableToCompact.toNat < 2 ^ 31 := by
  have launches := @launches_iff cfg db few start
  constructor
  · intro right
    by_contra large
    obtain ⟨job, launch⟩ := launches.mpr ⟨by omega, Or.inl (by omega)⟩
    obtain ⟨_, last⟩ := range_of_launch launch
    have bound := (right.inside job launch).2
    omega
  · intro small
    refine ⟨launches.trans ?_, fun job launch => ?_⟩
    · omega
    · obtain ⟨wide, last⟩ := range_of_launch launch
      have enough := launches.mp ⟨job, launch⟩
      exact ⟨wide, by omega⟩

end Guard

/-- A database with an empty SSTable queue. -/
def emptyQueue : ProjectDbImpl := .fresh ∅ 0 0 0

/-- Seven SSTables, of which the oldest is not compacted any more. -/
def sevenTables : ProjectDbImpl :=
  { emptyQueue with
    ssTableIndexQueue := ⟨(List.range 7).map fun c => { SSTableIndex.new with ssTableFileName := genSSTableFileName c }, 1⟩ }

/-- By default the other six are compacted. -/
theorem launchesInside_seven : (LaunchesInside .default sevenTables ↔ Config.default.numSSTableToCompact.toNat < 2 ^ 31) ∧
    ∃ job, tryLaunchCompaction .default sevenTables = .ok (some job) sevenTables ∧ (job.beginIt, job.endIt) = (1, 7) := by
  have inside : LaunchesInside .default sevenTables ↔ Config.default.numSSTableToCompact.toNat < 2 ^ 31 :=
    launchesInside_iff (by decide) (Or.inr (by decide))
  obtain ⟨job, launch⟩ := (inside.mpr (by decide)).launched.mpr ⟨by decide, by decide⟩
  obtain ⟨_, _, rfl⟩ := tryLaunchCompaction_some launch
  exact ⟨inside, _, launch, rfl⟩

/-- With the largest setting a compaction of the empty queue is launched. -/
theorem launches_on_empty :
    let cfg : Config := { Config.default with numSSTableToCompact := 4294967295 }
    ¬ LaunchesInside cfg emptyQueue := by
  intro cfg right
  obtain ⟨job, launch⟩ := (@launches_iff cfg emptyQueue (by decide) (Or.inl rfl)).mpr
    ⟨by decide, Or.inl (by decide)⟩
  obtain ⟨wide, inside⟩ := right.inside job launch
  have empty : emptyQueue.ssTableIndexQueue.queue.length = 0 := rfl
  omega

end SSTableIndexQueue
end ProjectDb
