import ProjectDb.SSTableFiles

namespace ProjectDb

/-- Any number of lookups in a row answer as the table does, whatever the
stream that is kept open has been used for before. -/
theorem SSTableIndex.Holds.seek_all {files : Files} {index : SSTableIndex} {s : SSTable} (holds : index.Holds files s)
    (keepSSTableFileOpen : Bool) (keys : List Key) :
    ∃ sought, keys.mapM (SSTableIndex.seek keepSSTableFileOpen files) index = .ok (keys.map s.table.find?) sought ∧
      sought.Holds files s := by
  induction keys generalizing index with
  | nil => exact ⟨index, rfl, holds⟩
  | cons key keys ih =>
    obtain ⟨middle, answer, _, still⟩ := holds.seek keepSSTableFileOpen key
    obtain ⟨sought, answers, last⟩ := ih still
    refine ⟨sought, ?_, last⟩
    rw [List.mapM_cons, EStateM.bind_ok answer, EStateM.bind_ok answers]
    rfl

section Reload
variable {writeBlockSize : UInt32} {s : SSTable} {name : FileName} {files flushed : Files} {written : SSTableIndex}

/-- A stored SSTable reloads to itself, with whatever block size it is read:
the index that is built on the way is exact, and looks keys up as the index of the flush does. -/
theorem loadSSTable_flushed (run : flushSSTable writeBlockSize s name files = .ok written flushed)
    (readBlockSize : UInt32) :
    ∃ reloaded, loadSSTable readBlockSize name (some .new) flushed = .ok (s, some reloaded) flushed ∧
      reloaded.Indexes s ∧ ∀ keepSSTableFileOpen (keys : List Key), ∃ answers soughtWritten soughtReloaded,
        keys.mapM (SSTableIndex.seek keepSSTableFileOpen flushed) written = .ok answers soughtWritten ∧
        keys.mapM (SSTableIndex.seek keepSSTableFileOpen flushed) reloaded = .ok answers soughtReloaded := by
  obtain ⟨holds, named, _⟩ := flushSSTable_spec run
  have file : flushed.read name = some s.serialized := by
    rw [← named]
    exact holds.file
  obtain ⟨reloaded, load, rebuilt, _⟩ := loadSSTable_index_spec readBlockSize file holds.small
  refine ⟨reloaded, load, rebuilt.indexes, fun keepSSTableFileOpen keys => ?_⟩
  obtain ⟨soughtWritten, seeks, _⟩ := holds.seek_all keepSSTableFileOpen keys
  obtain ⟨soughtReloaded, seeksReloaded, _⟩ := rebuilt.seek_all keepSSTableFileOpen keys
  exact ⟨_, soughtWritten, soughtReloaded, seeks, seeksReloaded⟩

/-- Written with two of the keys in the index, and read with all four. -/
theorem loadSSTable_flushed_blocks : ∃ written flushed reloaded,
    flushSSTable 2048 letters (genSSTableFileName 1) ∅ = .ok written flushed ∧
      loadSSTable 1 (genSSTableFileName 1) (some .new) flushed = .ok (letters, some reloaded) flushed ∧
      (written.index.size, reloaded.index.size) = (2, 4) ∧ reloaded.Indexes letters ∧
      ∀ keepSSTableFileOpen (keys : List Key), ∃ answers soughtWritten soughtReloaded,
        keys.mapM (SSTableIndex.seek keepSSTableFileOpen flushed) written = .ok answers soughtWritten ∧
        keys.mapM (SSTableIndex.seek keepSSTableFileOpen flushed) reloaded = .ok answers soughtReloaded := by
  obtain ⟨written, flushed, run⟩ : ∃ written flushed,
      flushSSTable 2048 letters (genSSTableFileName 1) ∅ = .ok written flushed :=
    flushSSTable_total (show letters.serialized.length < 2 ^ 63 by decide +kernel)
  obtain ⟨reloaded, load, indexes, answers⟩ := loadSSTable_flushed run 1
  have sizes : (match flushSSTable 2048 letters (genSSTableFileName 1) ∅ with
      | .ok written flushed =>
        match loadSSTable 1 (genSSTableFileName 1) (some .new) flushed with
        | .ok (_, some reloaded) _ => (written.index.size, reloaded.index.size)
        | _ => (0, 0)
      | .error _ _ => (0, 0)) = (2, 4) := by decide +kernel
  rw [run] at sizes
  simp only [load] at sizes
  exact ⟨written, flushed, reloaded, run, load, sizes, indexes, answers⟩

end Reload
end ProjectDb
