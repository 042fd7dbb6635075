import ProjectDb.SSTableQueueLookup

namespace ProjectDb

/-- The file names of some elements of the queue. -/
def namesOf (xs : List Indexed) : List FileName := xs.map fun x => x.1.ssTableFileName

theorem mem_namesOf {xs : List Indexed} {n : FileName} : n ∈ namesOf xs ↔ ∃ x ∈ xs, x.1.ssTableFileName = n :=
  List.mem_map

@[simp] theorem namesOf_append (xs ys : List Indexed) : namesOf (xs ++ ys) = namesOf xs ++ namesOf ys :=
  List.map_append

/-- A compaction to be installed: the queue around the window that has been
merged, and the groups of the window with the indexes of their merged files. -/
structure Install where
  below : List Indexed
  window : List Indexed
  above : List Indexed
  merged : List (List Indexed × SSTableIndex)

namespace Install

def before (I : Install) : List Indexed := I.below ++ I.window ++ I.above

/-- The element that a merged file becomes once it is renamed. -/
def rename (m : List Indexed × SSTableIndex) : Indexed :=
  ({ m.2 with ssTableFileName := m.2.ssTableFileName.removeExt }, mergeGroup (m.1.map Prod.snd))

def installed (I : Install) : List Indexed := I.merged.map rename

def after (I : Install) : List Indexed := I.below ++ I.installed ++ I.above

/-- The names are as the queue and the merge have them: every merged file is
called after an element of the window, in their order. -/
structure Named (I : Install) : Prop where
  names : RangeNames I.before
  firsts : (namesOf I.installed).Sublist (namesOf I.window)
  extended : ∀ m ∈ I.merged, m.2.ssTableFileName = genMergedSSTableFileName m.2.ssTableFileName.removeExt

/-- The files after the first `k` elements of the window have been marked as
deprecated and the first `i` merged files have been renamed. -/
structure Stage (I : Install) (base : Files) (k i : Nat) (files : Files) : Prop where
  kept : ∀ x ∈ I.below ++ I.above, x.1.Holds files x.2
  unmarked : ∀ x ∈ I.window.drop k, x.1.Holds files x.2
  renamed : ∀ x ∈ I.installed.take i, x.1.Holds files x.2
  pending : ∀ m ∈ I.merged.drop i, m.2.Holds files (mergeGroup (m.1.map Prod.snd))
  gone : ∀ n ∈ namesOf I.window, n ∉ namesOf (I.window.drop k ++ I.installed.take i) → files.read n = none
  others : ∀ n : FileName, n.extension = some .sst → n ∉ namesOf I.window → files.read n = base.read n
  order : i = 0 ∨ I.window.length ≤ k

/-- What the steps of an installation leave alone. -/
def Untouched (s t : Files) : Prop :=
  ∀ n : FileName, n.extension ≠ some .sst → n.extension ≠ some .merged → n.extension ≠ some .deprecated →
    t.read n = s.read n

variable {I : Install}

theorem Stage.frame {base files other : Files} {k i : Nat} (stage : I.Stage base k i files) (named : I.Named)
    (same : ∀ n : FileName, n.extension = some .sst ∨ n.extension = some .merged → other.read n = files.read n) :
    I.Stage base k i other := by
  have sst : ∀ x ∈ I.before, other.read x.1.ssTableFileName = files.read x.1.ssTableFileName := fun x member =>
    same _ (Or.inl (named.names.sst x member))
  have window : ∀ n ∈ namesOf I.window, other.read n = files.read n := by
    intro n member
    obtain ⟨x, inside, rfl⟩ := mem_namesOf.mp member
    exact sst x (by simp [before, inside])
  refine ⟨fun x member => (stage.kept x member).frame (sst x ?_),
    fun x member => (stage.unmarked x member).frame (sst x ?_),
    fun x member => (stage.renamed x member).frame (window _ ?_),
    fun m member => (stage.pending m member).frame (same _ (Or.inr ?_)),
    fun n member unlisted => (window n member).trans (stage.gone n member unlisted),
    fun n isSst outside => (same n (Or.inl isSst)).trans (stage.others n isSst outside), stage.order⟩
  · simp only [before, List.mem_append] at member ⊢
    tauto
  · simp [before, List.mem_of_mem_drop member]
  · exact named.firsts.subset (mem_namesOf.mpr ⟨x, List.mem_of_mem_take member, rfl⟩)
  · rw [named.extended m (List.mem_of_mem_drop member), genMergedSSTableFileName, FileName.extension_add]

/-- The elements beside the window have other names. -/
theorem Named.apart (named : I.Named) {x y : Indexed} (beside : x ∈ I.below ++ I.above) (inside : y ∈ I.window) :
    x.1.ssTableFileName ≠ y.1.ssTableFileName := by
  have nodup := named.names.nodup
  simp only [before, List.map_append] at nodup
  obtain ⟨front, _, frontAbove⟩ := List.nodup_append.mp nodup
  obtain ⟨_, _, belowWindow⟩ := List.nodup_append.mp front
  rcases List.mem_append.mp beside with low | high
  · exact belowWindow _ (List.mem_map_of_mem low) _ (List.mem_map_of_mem inside)
  · exact (frontAbove _ (List.mem_append_right _ (List.mem_map_of_mem inside)) _ (List.mem_map_of_mem high)).symm

theorem Named.window (named : I.Named) : (namesOf I.window).Nodup := by
  have nodup := named.names.nodup
  simp only [before, List.map_append] at nodup
  exact (List.nodup_append.mp (List.nodup_append.mp nodup).1).2.1

theorem Named.sst (named : I.Named) {n : FileName} (member : n ∈ namesOf I.window) : n.extension = some .sst := by
  obtain ⟨x, inside, rfl⟩ := mem_namesOf.mp member
  exact named.names.sst x (by simp [before, inside])

/-- One more element of the window is marked as deprecated. -/
theorem Stage.mark {base files : Files} {k : Nat} {x : Indexed} {rest : List Indexed} (stage : I.Stage base k 0 files)
    (named : I.Named) (next : I.window.drop k = x :: rest) :
    ∃ marked, markFileAsDeprecated x.1.ssTableFileName files = .ok () marked ∧ I.Stage base (k + 1) 0 marked ∧
      Untouched files marked := by
  have inside : x ∈ I.window := List.mem_of_mem_drop (by rw [next]; simp)
  have isSst := named.sst (mem_namesOf.mpr ⟨x, inside, rfl⟩)
  have rest_eq : I.window.drop (k + 1) = rest := by rw [← List.drop_drop, next]; rfl
  have distinct : ∀ y ∈ rest, y.1.ssTableFileName ≠ x.1.ssTableFileName := by
    have nodup : (namesOf (x :: rest)).Nodup := by
      rw [← next]
      exact named.window.sublist ((List.drop_sublist k _).map _)
    intro y member same
    exact (List.nodup_cons.mp nodup).1 (mem_namesOf.mpr ⟨y, member, same⟩)
  have here := stage.unmarked x (by rw [next]; simp)
  obtain ⟨marked, moved⟩ := Directory.rename_exists here.file (genDeprecatedFileName x.1.ssTableFileName)
  have reads (n : FileName) (notDeprecated : n.extension ≠ some .deprecated) :
      marked.read n = if n = x.1.ssTableFileName then none else files.read n := by
    rw [Directory.rename_eq_some moved, if_neg]
    rintro rfl
    exact notDeprecated (FileName.extension_add _ _)
  have other (n : FileName) (notDeprecated : n.extension ≠ some .deprecated) (different : n ≠ x.1.ssTableFileName) :
      marked.read n = files.read n := by
    rw [reads n notDeprecated, if_neg different]
  refine ⟨marked, by simp only [markFileAsDeprecated, moved], ⟨?_, ?_, by simp, ?_, ?_, ?_, Or.inl rfl⟩, ?_⟩
  · intro y member
    have ySst := named.names.sst y (by simp only [before, List.mem_append] at member ⊢; tauto)
    exact (stage.kept y member).frame (other _ (by rw [ySst]; decide) (named.apart member inside))
  · intro y member
    rw [rest_eq] at member
    have ySst := named.sst (mem_namesOf.mpr ⟨y, List.mem_of_mem_drop (by rw [next]; simp [member]), rfl⟩)
    exact (stage.unmarked y (by rw [next]; simp [member])).frame (other _ (by rw [ySst]; decide) (distinct y member))
  · intro m member
    have merged : m.2.ssTableFileName.extension = some .merged := by
      rw [named.extended m (List.mem_of_mem_drop member), genMergedSSTableFileName, FileName.extension_add]
    refine (stage.pending m member).frame (other _ (by rw [merged]; decide) fun same => ?_)
    rw [same, isSst] at merged
    contradiction
  · intro n member unlisted
    rw [reads n (by rw [named.sst member]; decide)]
    split_ifs with same
    · rfl
    · refine stage.gone n member fun listed => unlisted ?_
      rw [rest_eq]
      rw [next] at listed
      simp only [List.take_zero, List.append_nil] at listed ⊢
      exact (List.mem_cons.mp listed).resolve_left same
  · intro n nSst outside
    rw [other n (by rw [nSst]; decide) fun same => outside (same ▸ mem_namesOf.mpr ⟨x, inside, rfl⟩)]
    exact stage.others n nSst outside
  · intro n notSst _ notDeprecated
    exact other n notDeprecated fun same => notSst (same ▸ isSst)

/-- One more merged file gets the name of an SSTable. -/
theorem Stage.install {base files : Files} {i : Nat} {m : List Indexed × SSTableIndex}
    {rest : List (List Indexed × SSTableIndex)} (stage : I.Stage base I.window.length i files)
    (named : I.Named) (next : I.merged.drop i = m :: rest) :
    ∃ renamed, removeExtAndRename m.2.ssTableFileName files = .ok m.2.ssTableFileName.removeExt renamed ∧
      I.Stage base I.window.length (i + 1) renamed ∧ Untouched files renamed := by
  have member : m ∈ I.merged := List.mem_of_mem_drop (by rw [next]; simp)
  have extended := named.extended m member
  have isMerged : m.2.ssTableFileName.extension = some .merged := by
    rw [extended, genMergedSSTableFileName, FileName.extension_add]
  have inWindow : m.2.ssTableFileName.removeExt ∈ namesOf I.window :=
    named.firsts.subset (mem_namesOf.mpr ⟨rename m, List.mem_map_of_mem member, rfl⟩)
  have isSst := named.sst inWindow
  have different : m.2.ssTableFileName ≠ m.2.ssTableFileName.removeExt := by
    intro same
    rw [same, isSst] at isMerged
    contradiction
  have rest_eq : I.merged.drop (i + 1) = rest := by rw [← List.drop_drop, next]; rfl
  have taken : I.installed.take (i + 1) = I.installed.take i ++ [rename m] := by
    have at_ : I.installed[i]? = some (rename m) := by
      rw [← List.head?_drop, installed, ← List.map_drop, next]
      rfl
    rw [List.take_add_one, at_]
    rfl
  have nodup : (namesOf I.installed).Nodup := named.window.sublist named.firsts
  have split : I.installed = I.installed.take i ++ rename m :: rest.map rename := by
    have dropped : I.installed.drop i = rename m :: rest.map rename := by
      rw [installed, ← List.map_drop, next]
      rfl
    rw [← dropped, List.take_append_drop]
  rw [split, namesOf_append] at nodup
  obtain ⟨_, later, earlier⟩ := List.nodup_append.mp nodup
  have here := stage.pending m (by rw [next]; simp)
  obtain ⟨renamed, moved⟩ := Directory.rename_exists here.file m.2.ssTableFileName.removeExt
  have reads := Directory.rename_eq_some moved
  have other (n : FileName) (notFirst : n ≠ m.2.ssTableFileName.removeExt) (notMerged : n ≠ m.2.ssTableFileName) :
      renamed.read n = files.read n := by
    rw [reads, if_neg notFirst, if_neg notMerged]
  have sstOther (n : FileName) (nSst : n.extension = some .sst) (notFirst : n ≠ m.2.ssTableFileName.removeExt) :
      renamed.read n = files.read n := by
    refine other n notFirst ?_
    rintro rfl
    rw [isMerged] at nSst
    contradiction
  refine ⟨renamed, by simp only [removeExtAndRename, moved], ⟨?_, by simp, ?_, ?_, ?_, ?_, Or.inr le_rfl⟩, ?_⟩
  · intro x beside
    have xSst := named.names.sst x (by simp only [before, List.mem_append] at beside ⊢; tauto)
    obtain ⟨y, inside, same⟩ := mem_namesOf.mp inWindow
    exact (stage.kept x beside).frame (sstOther _ xSst (same ▸ named.apart beside inside))
  · rw [taken]
    intro x listed
    rcases List.mem_append.mp listed with old | new
    · have distinct := earlier _ (mem_namesOf.mpr ⟨x, old, rfl⟩) _ (List.mem_cons_self ..)
      have xSst := named.sst (named.firsts.subset (mem_namesOf.mpr ⟨x, List.mem_of_mem_take old, rfl⟩))
      exact (stage.renamed x old).frame (sstOther _ xSst distinct)
    · obtain rfl := List.mem_singleton.mp new
      exact here.rename (by rw [reads, if_pos rfl])
  · rw [rest_eq]
    intro p listed
    have pMember : p ∈ I.merged := List.mem_of_mem_drop (by rw [next]; simp [listed])
    have pExtended := named.extended p pMember
    have pMerged : p.2.ssTableFileName.extension = some .merged := by
      rw [pExtended, genMergedSSTableFileName, FileName.extension_add]
    refine (stage.pending p (by rw [next]; simp [listed])).frame (other _ ?_ ?_)
    · intro same
      rw [same, isSst] at pMerged
      contradiction
    · intro same
      refine (List.nodup_cons.mp later).1 (mem_namesOf.mpr ⟨rename p, List.mem_map_of_mem listed, ?_⟩)
      simp only [rename, same]
  · intro n inside unlisted
    rw [taken, List.drop_length, List.nil_append, namesOf_append, List.mem_append, not_or] at unlisted
    have notFirst : n ≠ m.2.ssTableFileName.removeExt := by
      rintro rfl
      exact unlisted.2 (List.mem_singleton_self _)
    rw [sstOther n (named.sst inside) notFirst]
    exact stage.gone n inside (by rw [List.drop_length, List.nil_append]; exact unlisted.1)
  · intro n nSst outside
    rw [sstOther n nSst fun same => outside (same ▸ inWindow)]
    exact stage.others n nSst outside
  · intro n notSst notMerged _
    refine other n ?_ ?_
    · rintro rfl
      exact notSst isSst
    · rintro rfl
      exact notMerged isMerged

end Install
end ProjectDb
