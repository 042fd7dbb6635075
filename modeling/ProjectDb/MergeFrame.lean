import ProjectDb.FileNumbers

namespace ProjectDb

/-- Both directories hold the same under some names. -/
def Agree (A : FileName → Prop) (files other : Files) : Prop := ∀ n, A n → other.read n = files.read n

variable {cfg : Config} {A : FileName → Prop} {files other after : Files}

theorem Agree.mono {B : FileName → Prop} (agree : Agree A files other) (fewer : ∀ n, B n → A n) : Agree B files other :=
  fun n known => agree n (fewer n known)

theorem Agree.symm (agree : Agree A files other) : Agree A other files := fun n known => (agree n known).symm

theorem Agree.write (agree : Agree A files other) (name : FileName) (bytes : List Byte) :
    Agree (fun n => n = name ∨ A n) (Directory.write files name bytes) (Directory.write other name bytes) := by
  intro n known
  rw [Directory.read_write, Directory.read_write]
  split_ifs with same
  · rfl
  · exact agree n (known.resolve_left same)

theorem Agree.remove (agree : Agree A files other) (name : FileName) :
    Agree A (Directory.remove files name) (Directory.remove other name) := by
  intro n known
  rw [Directory.read_remove, Directory.read_remove, agree n known]

theorem Agree.getFileStream (agree : Agree A files other) {name : FileName} (known : A name) :
    getFileStream other name = getFileStream files name := by
  rw [ProjectDb.getFileStream, ProjectDb.getFileStream, agree name known]

section Merging

theorem loadSized_agree {index same : SSTableIndex} {sized : SSTable × Nat} (agree : Agree A files other)
    (known : A index.ssTableFileName) (name : same.ssTableFileName = index.ssTableFileName)
    (run : loadSized cfg index files = .ok sized after) : loadSized cfg same other = .ok sized other := by
  obtain ⟨table, loaded, load, rest⟩ := EStateM.bind_eq_ok run
  obtain ⟨size, measured, measure, ends⟩ := EStateM.bind_eq_ok rest
  have again : loadSSTable cfg.ssTableIndexBlockSizeInBytes same.ssTableFileName none other = .ok table other := by
    unfold loadSSTable at load ⊢
    rw [name, agree.getFileStream known]
    split at load
    · cases load
      rfl
    · cases load
  have unchanged : loaded = files := by
    unfold loadSSTable at load
    split at load
    · cases load
      rfl
    · cases load
  have weighs : getFileSizeInBytes same.ssTableFileName other = .ok size other := by
    rw [unchanged] at measure
    unfold getFileSizeInBytes at measure ⊢
    rw [name, agree _ known]
    split at measure
    · cases measure
      rfl
    · cases measure
  cases ends
  rw [loadSized, EStateM.bind_ok again]
  exact EStateM.bind_ok weighs

theorem mergeNext_agree {table : SSTable} {size : Nat} {next same : SSTableIndex} {sized : SSTable × Nat}
    (agree : Agree A files other) (known : A next.ssTableFileName) (name : same.ssTableFileName = next.ssTableFileName)
    (run : mergeNext cfg table size next files = .ok sized after) :
    mergeNext cfg table size same other = .ok sized other := by
  obtain ⟨loaded, _, load, run⟩ := EStateM.bind_eq_ok run
  cases run
  rw [mergeNext, EStateM.bind_ok (loadSized_agree agree known name load)]
  rfl

/-- A flush to either directory builds the same index. -/
theorem flushSSTable_agree {blockSize : UInt32} {s : SSTable} {name : FileName} {index : SSTableIndex}
    (agree : Agree A files other) (run : flushSSTable blockSize s name files = .ok index after) :
    ∃ left, flushSSTable blockSize s name other = .ok index left ∧
      Agree (fun n => n = index.ssTableFileName ∨ A n) after left := by
  have write : writeSSTable blockSize s name (files.removeNames (filesWithExt files .deprecated)) = .ok index after := run
  have again : flushSSTable blockSize s name other =
      writeSSTable blockSize s name (other.removeNames (filesWithExt other .deprecated)) := rfl
  obtain ⟨_, named, _⟩ := writeSSTable_spec write
  rw [(writeSSTable_eq blockSize s name _).2] at write
  rw [again, (writeSSTable_eq blockSize s name _).2]
  split_ifs at write ⊢
  cases write
  refine ⟨_, rfl, Agree.write (fun n known => ?_) _ _⟩
  rw [read_removeFilesWithExt, read_removeFilesWithExt, agree n known]

/-- Merging tables of the same names, which the directories agree on, comes to
the same: they then agree on what has been written, too. -/
theorem mergeLoop_agree {files other after : Files} {name : FileName} {table : SSTable} {size : Nat}
    {rtn out : List SSTableIndex} {next next' : SSTableIndex} (left left' : List SSTableIndex)
    (agree : Agree (fun n => n ∈ rtn.map (·.ssTableFileName) ∨ A n) files other)
    (named : left'.map (·.ssTableFileName) = left.map (·.ssTableFileName))
    (same : next'.ssTableFileName = next.ssTableFileName) (known : A next.ssTableFileName)
    (all : ∀ x ∈ left, A x.ssTableFileName) (run : mergeLoop cfg name table size rtn next left files = .ok out after) :
    ∃ end', mergeLoop cfg name table size rtn next' left' other = .ok out end' ∧
      Agree (fun n => n ∈ out.map (·.ssTableFileName) ∨ A n) after end' := by
  cases left with
  | nil =>
    obtain rfl := List.map_eq_nil_iff.mp named
    rw [mergeLoop] at run ⊢
    obtain ⟨merged, mid, load, run⟩ := EStateM.bind_eq_ok run
    cases mergeNext_files load
    obtain ⟨index, flushed, flush, run⟩ := EStateM.bind_eq_ok run
    cases run
    obtain ⟨end', again, still⟩ := flushSSTable_agree agree flush
    rw [EStateM.bind_ok (mergeNext_agree agree (Or.inr known) same load)]
    refine ⟨end', EStateM.bind_ok again, still.mono fun n listed => ?_⟩
    simp only [List.map_append, List.map_cons, List.map_nil, List.mem_append, List.mem_singleton] at listed
    tauto
  | cons curr rest =>
    obtain ⟨curr', rest', rfl, sameCurr, sameRest⟩ := List.map_eq_cons_iff.mp named
    have knownCurr : A curr.ssTableFileName := all curr (List.mem_cons_self ..)
    have knownRest : ∀ x ∈ rest, A x.ssTableFileName := fun x member => all x (List.mem_cons_of_mem _ member)
    rw [mergeLoop] at run ⊢
    obtain ⟨merged, mid, load, run⟩ := EStateM.bind_eq_ok run
    cases mergeNext_files load
    rw [EStateM.bind_ok (mergeNext_agree agree (Or.inr known) same load)]
    dsimp only at run ⊢
    split_ifs at run ⊢ with full
    · obtain ⟨index, flushed, flush, run⟩ := EStateM.bind_eq_ok run
      obtain ⟨flushed', again, still⟩ := flushSSTable_agree agree flush
      have grown : Agree (fun n => n ∈ (rtn ++ [index]).map (·.ssTableFileName) ∨ A n) flushed flushed' :=
        still.mono fun n listed => by
          simp only [List.map_append, List.map_cons, List.map_nil, List.mem_append, List.mem_singleton] at listed
          tauto
      rw [EStateM.bind_ok again]
      obtain ⟨loaded, mid, load, run⟩ := EStateM.bind_eq_ok run
      cases loadSized_files load
      rw [EStateM.bind_ok (loadSized_agree grown (Or.inr knownCurr) sameCurr load)]
      cases rest with
      | nil =>
        obtain rfl := List.map_eq_nil_iff.mp sameRest
        obtain ⟨last, closed, flush, run⟩ := EStateM.bind_eq_ok run
        cases run
        obtain ⟨end', again, last⟩ := flushSSTable_agree grown flush
        rw [sameCurr]
        refine ⟨end', EStateM.bind_ok again, last.mono fun n listed => ?_⟩
        simp only [List.map_append, List.map_cons, List.map_nil, List.mem_append, List.mem_singleton] at listed ⊢
        tauto
      | cons second rest =>
        obtain ⟨second', rest', rfl, sameSecond, sameRest⟩ := List.map_eq_cons_iff.mp sameRest
        change mergeLoop _ _ _ _ _ second rest flushed = _ at run
        rw [sameCurr]
        exact mergeLoop_agree rest rest' grown sameRest sameSecond (knownRest second (List.mem_cons_self ..))
          (fun x member => knownRest x (List.mem_cons_of_mem _ member)) run
    · exact mergeLoop_agree rest rest' agree sameRest sameCurr knownCurr knownRest run
termination_by left.length

theorem mergeSSTables_agree {range range' out : List SSTableIndex} (agree : Agree A files other)
    (named : range'.map (·.ssTableFileName) = range.map (·.ssTableFileName)) (known : ∀ x ∈ range, A x.ssTableFileName)
    (run : mergeSSTables cfg range files = .ok out after) :
    ∃ left, mergeSSTables cfg range' other = .ok out left ∧
      Agree (fun n => n ∈ out.map (·.ssTableFileName) ∨ A n) after left := by
  obtain ⟨_, cleaned, clean, run⟩ := EStateM.bind_eq_ok run
  cases clean
  have start : Agree (fun n => n ∈ ([] : List SSTableIndex).map (·.ssTableFileName) ∨ A n)
      (files.removeNames (filesWithExt files .deprecated)) (other.removeNames (filesWithExt other .deprecated)) := by
    rintro n (none | known)
    · cases none
    · rw [read_removeFilesWithExt, read_removeFilesWithExt, agree n known]
  cases range with
  | nil => cases run
  | cons curr rest =>
    cases rest with
    | nil => cases run
    | cons next rest =>
      obtain ⟨curr', rest', rfl, sameCurr, sameRest⟩ := List.map_eq_cons_iff.mp named
      obtain ⟨next', rest', rfl, sameNext, sameRest⟩ := List.map_eq_cons_iff.mp sameRest
      obtain ⟨loaded, mid, load, run⟩ := EStateM.bind_eq_ok run
      cases loadSized_files load
      have loads := loadSized_agree start (Or.inr (known curr (by simp))) sameCurr load
      obtain ⟨left, loop, still⟩ := mergeLoop_agree rest rest' start sameRest sameNext (known next (by simp))
        (fun x member => known x (by simp [member])) run
      refine ⟨left, ?_, still⟩
      have first : mergeSSTables cfg (curr' :: next' :: rest') other = (do
          let loaded ← loadSized cfg curr'
          mergeLoop cfg curr'.ssTableFileName loaded.1 loaded.2 [] next' rest')
            (other.removeNames (filesWithExt other .deprecated)) := rfl
      rw [first, EStateM.bind_ok loads, sameCurr]
      exact loop

end Merging
end ProjectDb
