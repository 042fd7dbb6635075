import ProjectDb.Isolation
import ProjectDb.Session

namespace ProjectDb

/-- The counters for SSTables, of which the last one has been used, and for
logs, of which the next one will be. -/
abbrev Counters := Nat × Nat

namespace FileName

/-- The counter of an SSTable or of a log is one that has been used. -/
def Within (c : Counters) (name : FileName) : Prop :=
  (name.extension = some .sst → name.counter ≤ c.1) ∧ (name.extension = some .txl → name.counter < c.2)

/-- The name of an SSTable that is complete. -/
def Finished (c : Counters) (name : FileName) : Prop := ∃ k ≤ c.1, name = genSSTableFileName k

/-- The name of an SSTable that is being flushed or merged. -/
def Unfinished (c : Counters) (name : FileName) : Prop :=
  ∃ k ≤ c.1, name = genFlushInProgressSSTableFileName (genSSTableFileName k) ∨
    name = genMergedSSTableFileName (genSSTableFileName k)

variable {c : Counters} {name : FileName}

theorem within_other (notSst : name.extension ≠ some .sst) (notLog : name.extension ≠ some .txl) : name.Within c :=
  ⟨fun isSst => absurd isSst notSst, fun isLog => absurd isLog notLog⟩

theorem Finished.within (finished : name.Finished c) : name.Within c := by
  obtain ⟨k, used, rfl⟩ := finished
  exact ⟨fun _ => used, fun isLog => by cases isLog⟩

theorem Unfinished.within (unfinished : name.Unfinished c) : name.Within c := by
  obtain ⟨k, _, rfl | rfl⟩ := unfinished
  · exact within_other (by simp [genFlushInProgressSSTableFileName]) (by simp [genFlushInProgressSSTableFileName])
  · exact within_other (by simp [genMergedSSTableFileName]) (by simp [genMergedSSTableFileName])

theorem Unfinished.removeExt (unfinished : name.Unfinished c) : name.removeExt.Finished c := by
  obtain ⟨k, used, rfl | rfl⟩ := unfinished
  · exact ⟨k, used, removeExt_add ..⟩
  · exact ⟨k, used, removeExt_add ..⟩

end FileName

/-- All SSTables and logs of the directory have counters that have been used. -/
def Covered (c : Counters) (files : Files) : Prop := ∀ n ∈ files.names, n.Within c

section Covered
variable {c : Counters} {files after : Files} {name : FileName}

theorem Covered.grown (covered : Covered c files) (grown : ∀ n ∈ after.names, n ∈ files.names ∨ n.Within c) :
    Covered c after := fun n member => (grown n member).elim (covered n) id

theorem Covered.write (covered : Covered c files) (within : name.Within c) (contents : List Byte) :
    Covered c (Directory.write files name contents) := by
  refine covered.grown fun n member => ?_
  obtain ⟨bytes, found⟩ := Directory.mem_names.mp member
  rw [Directory.read_write] at found
  split_ifs at found with same
  · exact Or.inr (same ▸ within)
  · exact Or.inl (Directory.mem_names.mpr ⟨bytes, found⟩)

theorem Covered.remove (covered : Covered c files) (name : FileName) : Covered c (Directory.remove files name) := by
  refine covered.grown fun n member => Or.inl ?_
  obtain ⟨bytes, found⟩ := Directory.mem_names.mp member
  rw [Directory.read_remove] at found
  split_ifs at found
  exact Directory.mem_names.mpr ⟨bytes, found⟩

theorem Covered.rename {old : FileName} (covered : Covered c files) (within : name.Within c)
    (run : Directory.rename files old name = some after) : Covered c after := by
  refine covered.grown fun n member => ?_
  obtain ⟨bytes, found⟩ := Directory.mem_names.mp member
  rw [Directory.rename_eq_some run] at found
  split_ifs at found with same
  · exact Or.inr (same ▸ within)
  · exact Or.inl (Directory.mem_names.mpr ⟨bytes, found⟩)

theorem markFileAsDeprecated_covered (covered : Covered c files) (name : FileName) :
    (markFileAsDeprecated name files).EndsIn (fun _ after => Covered c after) fun _ after => Covered c after := by
  unfold markFileAsDeprecated
  cases run : Directory.rename files name (genDeprecatedFileName name) with
  | none => exact covered
  | some after =>
    refine covered.rename (FileName.within_other ?_ ?_) run
    · simp [genDeprecatedFileName]
    · simp [genDeprecatedFileName]

/-- A file that gets the name of an SSTable has been given its counter before. -/
theorem removeExtAndRename_covered (covered : Covered c files) (unfinished : name.Unfinished c) :
    (removeExtAndRename name files).EndsIn (fun renamed after => renamed.Finished c ∧ Covered c after)
      fun _ after => Covered c after := by
  unfold removeExtAndRename
  cases run : Directory.rename files name name.removeExt with
  | none => exact covered
  | some after => exact ⟨unfinished.removeExt, covered.rename unfinished.removeExt.within run⟩

end Covered

section Merging
variable {cfg : Config} {files after : Files}

theorem loadSized_files {index : SSTableIndex} {sized : SSTable × Nat} (run : loadSized cfg index files = .ok sized after) :
    after = files := by
  obtain ⟨table, loaded, load, run⟩ := EStateM.bind_eq_ok run
  obtain ⟨size, measured, measure, run⟩ := EStateM.bind_eq_ok run
  have same : loaded = files := by
    unfold loadSSTable at load
    split at load
    · cases load
      rfl
    · cases load
  have again : measured = loaded := by
    unfold getFileSizeInBytes at measure
    split at measure
    · cases measure
      rfl
    · cases measure
  cases run
  rw [again, same]

theorem mergeNext_files {table : SSTable} {size : Nat} {next : SSTableIndex} {sized : SSTable × Nat}
    (run : mergeNext cfg table size next files = .ok sized after) : after = files := by
  obtain ⟨loaded, same, load, run⟩ := EStateM.bind_eq_ok run
  cases run
  exact loadSized_files load

/-- What is merged goes to files that are named after tables of the range. -/
def MergesInto (files : Files) (bases : List FileName) (rtn out : List SSTableIndex) (after : Files) : Prop :=
  (∀ n ∈ after.names, n ∈ files.names ∨ n.extension = some .merged) ∧
    ∀ index ∈ out, index ∈ rtn ∨ ∃ base ∈ bases, index.ssTableFileName = genMergedSSTableFileName base

theorem MergesInto.flush {blockSize : UInt32} {s : SSTable} {base : FileName} {bases : List FileName}
    {index : SSTableIndex} (rtn : List SSTableIndex) (listed : base ∈ bases)
    (run : flushSSTable blockSize s (genMergedSSTableFileName base) files = .ok index after) :
    MergesInto files bases rtn (rtn ++ [index]) after := by
  obtain ⟨_, named, reads⟩ := flushSSTable_spec run
  refine ⟨fun n member => ?_, fun x member => ?_⟩
  · obtain ⟨bytes, found⟩ := Directory.mem_names.mp member
    rw [reads] at found
    split_ifs at found with same
    · exact Or.inr (by rw [same]; exact FileName.extension_add ..)
    · exact Or.inl (Directory.mem_names.mpr ⟨bytes, found⟩)
  · rcases List.mem_append.mp member with old | new
    · exact Or.inl old
    · rw [List.mem_singleton.mp new]
      exact Or.inr ⟨base, listed, named⟩

theorem MergesInto.trans {mid : Files} {bases : List FileName} {rtn some out : List SSTableIndex}
    (first : MergesInto files bases rtn some mid) (second : MergesInto mid bases some out after) :
    MergesInto files bases rtn out after := by
  refine ⟨fun n member => ?_, fun index member => ?_⟩
  · rcases second.1 n member with old | merged
    · exact first.1 n old
    · exact Or.inr merged
  · rcases second.2 index member with old | named
    · exact first.2 index old
    · exact Or.inr named

theorem MergesInto.wider {bases more : List FileName} {rtn out : List SSTableIndex}
    (merges : MergesInto files bases rtn out after) (inside : bases ⊆ more) : MergesInto files more rtn out after :=
  ⟨merges.1, fun index member => (merges.2 index member).imp_right fun named => by
    obtain ⟨base, listed, same⟩ := named
    exact ⟨base, inside listed, same⟩⟩

/-- What `mergeSSTables` writes and returns is named after the table that begins
its group, whatever the files hold. -/
theorem mergeLoop_mergesInto {files after : Files} {name : FileName} {table : SSTable} {size : Nat} {rtn out : List SSTableIndex}
    {next : SSTableIndex} (left : List SSTableIndex)
    (run : mergeLoop cfg name table size rtn next left files = .ok out after) :
    MergesInto files (name :: left.map (·.ssTableFileName)) rtn out after := by
  cases left with
  | nil =>
    rw [mergeLoop] at run
    obtain ⟨merged, same, load, run⟩ := EStateM.bind_eq_ok run
    cases mergeNext_files load
    obtain ⟨index, flushed, flush, run⟩ := EStateM.bind_eq_ok run
    cases run
    exact .flush rtn (List.mem_cons_self ..) flush
  | cons curr rest =>
    rw [mergeLoop] at run
    obtain ⟨merged, same, load, run⟩ := EStateM.bind_eq_ok run
    cases mergeNext_files load
    dsimp only at run
    split_ifs at run
    · obtain ⟨index, flushed, flush, run⟩ := EStateM.bind_eq_ok run
      have first : MergesInto files (name :: (curr :: rest).map (·.ssTableFileName)) rtn (rtn ++ [index]) flushed :=
        .flush rtn (List.mem_cons_self ..) flush
      obtain ⟨loaded, same, load, run⟩ := EStateM.bind_eq_ok run
      cases loadSized_files load
      cases rest with
      | nil =>
        obtain ⟨last, closed, flush, run⟩ := EStateM.bind_eq_ok run
        cases run
        exact first.trans (.flush _ (by simp) flush)
      | cons second rest =>
        change mergeLoop _ _ _ _ _ second rest flushed = _ at run
        have later := mergeLoop_mergesInto rest run
        exact first.trans (later.wider fun base listed => by
          simp only [List.map_cons, List.mem_cons] at listed ⊢
          tauto)
    · have later := mergeLoop_mergesInto rest run
      exact later.wider fun base listed => by
        simp only [List.map_cons, List.mem_cons] at listed ⊢
        tauto
termination_by left.length

theorem mergeSSTables_mergesInto {range out : List SSTableIndex} (run : mergeSSTables cfg range files = .ok out after) :
    MergesInto files (range.map (·.ssTableFileName)) [] out after := by
  obtain ⟨_, cleaned, clean, run⟩ := EStateM.bind_eq_ok run
  cases clean
  have fewer : MergesInto files (range.map (·.ssTableFileName)) [] []
      (files.removeNames (filesWithExt files .deprecated)) := by
    refine ⟨fun n member => Or.inl ?_, fun index member => absurd member (List.not_mem_nil)⟩
    obtain ⟨bytes, found⟩ := Directory.mem_names.mp member
    rw [read_removeFilesWithExt] at found
    split_ifs at found
    exact Directory.mem_names.mpr ⟨bytes, found⟩
  cases range with
  | nil => cases run
  | cons curr rest =>
    cases rest with
    | nil => cases run
    | cons next rest =>
      obtain ⟨loaded, same, load, run⟩ := EStateM.bind_eq_ok run
      cases loadSized_files load
      refine fewer.trans ((mergeLoop_mergesInto rest run).wider fun base listed => ?_)
      simp only [List.map_cons, List.mem_cons] at listed ⊢
      tauto

end Merging
end ProjectDb
