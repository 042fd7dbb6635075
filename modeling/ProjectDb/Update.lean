import ProjectDb.Installation

namespace ProjectDb

/-- What the code around an installation relies on: other threads leave the
queue and the SSTable and merged files alone, and `kept` is not disturbed by
them nor by what the installation changes. -/
structure Undisturbed (rely : ProjectDbImpl → ProjectDbImpl → Prop) (kept : ProjectDbImpl → Prop) : Prop where
  others : ∀ ⦃s t⦄, kept s → rely s t → kept t ∧ t.ssTableIndexQueue = s.ssTableIndexQueue ∧
    ∀ n : FileName, n.extension = some .sst ∨ n.extension = some .merged → t.files.read n = s.files.read n
  install : ∀ ⦃s⦄ files queue, kept s → Install.Untouched s.files files →
    kept { s with files := files, ssTableIndexQueue := queue }

namespace Install

/-- The installation has come to a stage, with the queue as given. -/
structure At (I : Install) (base : Files) (kept : ProjectDbImpl → Prop) (k i : Nat) (queue : SSTableIndexQueue)
    (db : ProjectDbImpl) : Prop where
  kept : kept db
  stage : I.Stage base k i db.files
  queue : db.ssTableIndexQueue = queue

variable {I : Install} {base : Files} {rely : ProjectDbImpl → ProjectDbImpl → Prop} {kept : ProjectDbImpl → Prop}

/-- Between its steps an installation is at some stage. -/
def Always (I : Install) (base : Files) (kept : ProjectDbImpl → Prop) (db : ProjectDbImpl) : Prop :=
  kept db ∧ ∃ k i, I.Stage base k i db.files

theorem At.assertion (named : I.Named) (undisturbed : Undisturbed rely kept) (k i : Nat) (queue : SSTableIndexQueue) :
    Prog.Assertion rely (I.Always base kept) (I.At base kept k i queue) where
  stable _ _ at_ step := by
    obtain ⟨still, same, reads⟩ := undisturbed.others at_.kept step
    exact ⟨still, at_.stage.frame named reads, same.trans at_.queue⟩
  within _ at_ := ⟨at_.kept, k, i, at_.stage⟩

section Steps
variable (named : I.Named) (undisturbed : Undisturbed rely kept) {raised : Exn → Prop}
include named undisturbed

theorem markCompacted_safe {queue : SSTableIndexQueue} (rest : List Indexed) (k : Nat)
    (next : I.window.drop k = rest) {db : ProjectDbImpl} (at_ : I.At base kept k 0 queue db) :
    (SSTableIndexQueue.markCompacted (rest.map Prod.fst)).Safe rely (I.Always base kept) raised
      (fun _ => I.At base kept I.window.length 0 queue) db := by
  induction rest generalizing k db with
  | nil =>
    have all : I.window.length ≤ k := List.drop_eq_nil_iff.mp next
    refine Prog.Safe.ret (Q := fun _ => I.At base kept I.window.length 0 queue)
      (At.assertion named undisturbed _ _ _) ⟨at_.kept, ?_, at_.queue⟩
    have stage := at_.stage
    refine ⟨stage.kept, by simp, by simp, stage.pending, ?_, stage.others, Or.inl rfl⟩
    have listed := stage.gone
    rw [next] at listed
    rwa [List.drop_length]
  | cons x rest ih =>
    refine Prog.Safe.bind (Prog.Safe.atomic (P := I.At base kept k 0 queue)
      (Q := fun _ => I.At base kept (k + 1) 0 queue) (At.assertion named undisturbed _ _ _)
      (fun _ => At.assertion named undisturbed _ _ _) at_ ?_) ?_
    · intro t now
      obtain ⟨marked, run, stage, untouched⟩ := now.stage.mark named next
      refine ⟨(), { t with files := marked }, by simp only [DbM.file, run], ?_, stage, now.queue⟩
      exact undisturbed.install marked t.ssTableIndexQueue now.kept untouched
    · intro _ t now
      exact ih (k + 1) (by rw [← List.drop_drop, next]; rfl) now

theorem renameMerged_safe {queue : SSTableIndexQueue} (rest : List (List Indexed × SSTableIndex)) (i : Nat)
    (next : I.merged.drop i = rest) {db : ProjectDbImpl} (at_ : I.At base kept I.window.length i queue db) :
    (SSTableIndexQueue.renameMerged (rest.map Prod.snd)).Safe rely (I.Always base kept) raised
      (fun renamed t => renamed = (rest.map rename).map Prod.fst ∧
        I.At base kept I.window.length I.merged.length queue t) db := by
  induction rest generalizing i db with
  | nil =>
    have all : I.merged.length ≤ i := List.drop_eq_nil_iff.mp next
    refine Prog.Safe.ret (Q := fun renamed t => renamed = [] ∧ I.At base kept I.window.length I.merged.length queue t)
      ((At.assertion named undisturbed _ _ _).and_pure _) ⟨rfl, at_.kept, ?_, at_.queue⟩
    have stage := at_.stage
    have whole : I.installed.take i = I.installed.take I.merged.length := by
      rw [List.take_of_length_le, List.take_of_length_le]
      · simp [installed]
      · simpa [installed] using all
    refine ⟨stage.kept, stage.unmarked, whole ▸ stage.renamed, by simp, whole ▸ stage.gone, stage.others, Or.inr le_rfl⟩
  | cons m rest ih =>
    refine Prog.Safe.bind (Prog.Safe.atomic (P := I.At base kept I.window.length i queue)
      (Q := fun name t => name = m.2.ssTableFileName.removeExt ∧ I.At base kept I.window.length (i + 1) queue t)
      (At.assertion named undisturbed _ _ _) (fun _ => (At.assertion named undisturbed _ _ _).and_pure _) at_ ?_) ?_
    · intro t now
      obtain ⟨renamed, run, stage, untouched⟩ := now.stage.install named next
      refine ⟨_, { t with files := renamed }, by simp only [DbM.file, run], rfl, ?_, stage, now.queue⟩
      exact undisturbed.install renamed t.ssTableIndexQueue now.kept untouched
    · rintro _ t ⟨rfl, now⟩
      refine (ih (i + 1) (by rw [← List.drop_drop, next]; rfl) now).bind ?_
      rintro _ u ⟨rfl, done⟩
      exact Prog.Safe.ret (Q := fun renamed t => renamed = _ ∧ I.At base kept I.window.length I.merged.length queue t)
        ((At.assertion named undisturbed _ _ _).and_pure _) ⟨rfl, done⟩

theorem eraseCompacted_safe {db : ProjectDbImpl}
    (at_ : I.At base kept I.window.length 0 ⟨I.before.map Prod.fst, I.below.length⟩ db) :
    (Prog.atomic (SSTableIndexQueue.eraseCompacted I.below.length I.window.length)).Safe rely
      (I.Always base kept) raised
      (fun _ => I.At base kept I.window.length 0 ⟨(I.below ++ I.above).map Prod.fst, I.below.length⟩) db := by
  refine Prog.Safe.atomic (P := I.At base kept I.window.length 0 ⟨I.before.map Prod.fst, I.below.length⟩)
    (At.assertion named undisturbed _ _ _) (fun _ => At.assertion named undisturbed _ _ _) at_ ?_
  intro t now
  refine ⟨(), _, rfl, undisturbed.install t.files _ now.kept fun _ _ _ _ => rfl, now.stage, ?_⟩
  simp [now.queue, before, List.drop_append]

theorem insertMerged_safe {db : ProjectDbImpl}
    (at_ : I.At base kept I.window.length I.merged.length ⟨(I.below ++ I.above).map Prod.fst, I.below.length⟩ db) :
    (Prog.atomic (SSTableIndexQueue.insertMerged I.below.length (I.installed.map Prod.fst))).Safe rely
      (I.Always base kept) raised
      (fun _ => I.At base kept I.window.length I.merged.length
        ⟨I.after.map Prod.fst, I.below.length + I.merged.length - 1⟩) db := by
  refine Prog.Safe.atomic
    (P := I.At base kept I.window.length I.merged.length ⟨(I.below ++ I.above).map Prod.fst, I.below.length⟩)
    (At.assertion named undisturbed _ _ _) (fun _ => At.assertion named undisturbed _ _ _) at_ ?_
  intro t now
  refine ⟨(), _, rfl, undisturbed.install t.files _ now.kept fun _ _ _ _ => rfl, now.stage, ?_⟩
  simp [now.queue, after, installed]

/-- `update` installs the compaction, and is at one of its stages at any time
before it returns. -/
theorem update_safe {cfg : Config} (wide : I.window.length = cfg.numSSTableToCompact.toNat + 1)
    (positive : cfg.numSSTableToCompact.toNat ≠ 0) (some : I.merged ≠ []) {db : ProjectDbImpl}
    (at_ : I.At base kept 0 0 ⟨I.before.map Prod.fst, I.below.length⟩ db) :
    (SSTableIndexQueue.update cfg (I.merged.map Prod.snd)).Safe rely (I.Always base kept) raised
      (fun _ => I.At base kept I.window.length I.merged.length
        ⟨I.after.map Prod.fst, I.below.length + I.merged.length - 1⟩) db := by
  refine Prog.Safe.bind (Prog.Safe.read (At.assertion named undisturbed 0 0 _) at_ fun t now => now.queue) ?_
  rintro _ t ⟨rfl, now⟩
  have enough : ¬ ((I.before.map Prod.fst).length : Int) - ((I.below.length : Int) + 1) <
      cfg.numSSTableToCompact.toNat := by
    simp only [before, List.length_map, List.length_append, wide]
    omega
  have nonempty : ¬ (I.merged.map Prod.snd).isEmpty = true := by simpa using some
  have window : ((I.before.map Prod.fst).drop I.below.length).take (1 + cfg.numSSTableToCompact.toNat) =
      I.window.map Prod.fst := by
    rw [Nat.add_comm, ← wide]
    simp [before]
  have sum : 1 + cfg.numSSTableToCompact.toNat = I.window.length := by omega
  simp only [if_neg positive, if_neg enough, if_neg nonempty, window]
  rw [sum]
  refine (markCompacted_safe named undisturbed I.window 0 rfl now).bind fun _ t now => ?_
  refine (eraseCompacted_safe named undisturbed now).bind fun _ t now => ?_
  refine (renameMerged_safe named undisturbed I.merged 0 rfl now).bind ?_
  rintro _ t ⟨rfl, now⟩
  exact insertMerged_safe named undisturbed now

end Steps
end Install
end ProjectDb
