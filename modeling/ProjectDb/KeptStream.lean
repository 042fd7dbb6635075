import ProjectDb.BlockDecoding
import ProjectDb.CompactionAnswers

namespace ProjectDb
namespace SSTableIndex

/-- Seek one key after the other, also after exceptions: what each call comes to. -/
def seekEach (keepSSTableFileOpen : Bool) (files : Files) : List Key → SSTableIndex → List (Except Exn (Option Value))
  | [], _ => []
  | key :: keys, self =>
    match self.seek keepSSTableFileOpen files key with
    | .ok answer self => .ok answer :: seekEach keepSSTableFileOpen files keys self
    | .error e self => .error e :: seekEach keepSSTableFileOpen files keys self

/-- The block of the key is not empty, and whole entries stand in it. -/
def Decodes (self : SSTableIndex) (files : Files) (key : Key) : Prop :=
  ∃ startPos endPos, self.getPotentialBlockPos key = some (startPos, endPos) ∧ startPos < endPos ∧
    WholeEntries (getFileStream files self.ssTableFileName).content startPos endPos

/-- The block of the key starts in front of the file, or it is not empty and not
made of whole entries. -/
def Spoils (self : SSTableIndex) (files : Files) (key : Key) : Prop :=
  ∃ startPos endPos, self.getPotentialBlockPos key = some (startPos, endPos) ∧ (startPos < 0 ∨ startPos < endPos ∧
    ¬ WholeEntries (getFileStream files self.ssTableFileName).content startPos endPos)

variable {self : SSTableIndex} {files : Files} {key : Key} {keys : List Key} {is : IStream}

theorem getFileStream_working {files : Files} {name : FileName} (some : (getFileStream files name).content ≠ []) :
    (getFileStream files name).failbit = false := by
  unfold getFileStream at some ⊢
  cases found : files.read name with
  | none =>
    rw [found] at some
    exact absurd rfl some
  | some contents => rfl

/-- A lookup without a block, or one that decodes the range of its block. -/
theorem seek_fresh (self : SSTableIndex) (files : Files) (key : Key) : self.seek false files key =
    match self.getPotentialBlockPos key with
    | none => .ok none self
    | some (startPos, endPos) =>
      match deserializeRange startPos endPos (getFileStream files self.ssTableFileName) with
      | .ok partialSSTable _ => .ok (partialSSTable.find? key) self
      | .error e _ => .error e self := rfl

theorem seek_kept (self : SSTableIndex) (files : Files) (key : Key) (is : IStream) :
    SSTableIndex.seek true files key { self with ifs := some is } =
      match self.getPotentialBlockPos key with
      | none => .ok none { self with ifs := some is }
      | some (startPos, endPos) =>
        match deserializeRange startPos endPos is with
        | .ok partialSSTable left => .ok (partialSSTable.find? key) { self with ifs := some left }
        | .error e left => .error e { self with ifs := some left } := rfl

/-- What a stream does on the block of a key: the answer of a fresh stream, unless
it has failed and the block could be read; and whether it has failed afterwards. -/
theorem seek_compare (self : SSTableIndex) (files : Files) (key : Key) (is : IStream)
    (same : is.content = (getFileStream files self.ssTableFileName).content) : ∃ kept fresh left,
    (∀ keys, seekEach true files (key :: keys) { self with ifs := some is } =
      kept :: seekEach true files keys { self with ifs := some left }) ∧
    (∀ keys, seekEach false files (key :: keys) self = fresh :: seekEach false files keys self) ∧
    (kept = fresh ↔ (is.failbit = true → ¬ self.Decodes files key)) ∧
    (left.failbit = true ↔ is.failbit = true ∨ self.Spoils files key) ∧ left.content = is.content := by
  simp only [seekEach, seek_fresh, seek_kept]
  cases block : self.getPotentialBlockPos key with
  | none => exact ⟨_, _, is, fun _ => rfl, fun _ => rfl, by simp [Decodes, block], by simp [Spoils, block], rfl⟩
  | some range =>
    obtain ⟨startPos, endPos⟩ := range
    have decodes : self.Decodes files key ↔ startPos < endPos ∧
        WholeEntries (getFileStream files self.ssTableFileName).content startPos endPos := by
      simp [Decodes, block]
    have spoils : self.Spoils files key ↔ startPos < 0 ∨ startPos < endPos ∧
        ¬ WholeEntries (getFileStream files self.ssTableFileName).content startPos endPos := by
      simp [Spoils, block]
    rw [decodes, spoils]
    dsimp only
    by_cases some : startPos < endPos
    · by_cases whole : WholeEntries (getFileStream files self.ssTableFileName).content startPos endPos
      · obtain ⟨table, decode⟩ := whole.decode
        obtain ⟨freshLeft, freshRun, _⟩ := decode _ rfl (getFileStream_working (whole.nonempty some))
        have nonneg : ¬ startPos < 0 := by
          obtain ⟨before, _, _, _, rfl, _⟩ := whole
          omega
        cases working : is.failbit with
        | false =>
          obtain ⟨left, run, still, content⟩ := decode is same working
          exact ⟨_, _, left, fun _ => by rw [run], fun _ => by rw [freshRun], by simp, by simp [still, nonneg, whole],
            content.trans same.symm⟩
        | true =>
          obtain ⟨e, left, run, _, still, content⟩ := deserializeRange_failed is some
            ((IStream.failbit_seekg ..).mpr (Or.inl working))
          exact ⟨_, _, left, fun _ => by rw [run], fun _ => by rw [freshRun], by simp [some, whole], by simp [still],
            content⟩
      · obtain ⟨e, left, run, thrown, still, content⟩ := deserializeRange_torn is some (same ▸ whole)
        obtain ⟨e', freshLeft, freshRun, freshThrown, _⟩ := deserializeRange_torn _ some whole
        exact ⟨_, _, left, fun _ => by rw [run], fun _ => by rw [freshRun],
          by simp [thrown.trans freshThrown.symm, whole], by simp [still, some, whole], content⟩
    · have empty (is : IStream) := deserializeRange_empty is (not_lt.mp some)
      exact ⟨_, _, is.seekg startPos, fun _ => by rw [empty], fun _ => by rw [empty], by simp [some],
        by simp [some, IStream.failbit_seekg], IStream.content_seekg ..⟩

/-- On one stream over the same bytes. -/
theorem seekEach_stream (is : IStream) (same : is.content = (getFileStream files self.ssTableFileName).content) :
    seekEach true files keys { self with ifs := some is } = seekEach false files keys self ↔
      (is.failbit = true → ∀ key ∈ keys, ¬ self.Decodes files key) ∧
        keys.Pairwise fun earlier later => self.Spoils files earlier → ¬ self.Decodes files later := by
  induction keys generalizing is with
  | nil => simp [seekEach]
  | cons key keys ih =>
    obtain ⟨kept, fresh, left, keptRun, freshRun, answers, failed, content⟩ := seek_compare self files key is same
    rw [keptRun, freshRun, List.cons.injEq, answers, ih left (content.trans same), failed, List.forall_mem_cons,
      List.pairwise_cons]
    constructor
    · rintro ⟨here, later, rest⟩
      exact ⟨fun bad => ⟨here bad, later (Or.inl bad)⟩, fun key member spoiled => later (Or.inr spoiled) key member, rest⟩
    · rintro ⟨broken, spoiled, rest⟩
      refine ⟨fun bad => (broken bad).1, fun bad => ?_, rest⟩
      rcases bad with bad | bad
      · exact (broken bad).2
      · exact fun key member => spoiled key member bad

/-- The first lookup opens the stream. -/
theorem seekEach_open (closed : self.ifs = none) : seekEach true files keys self =
    seekEach true files keys { self with ifs := some (getFileStream files self.ssTableFileName) } := by
  cases keys with
  | nil => rfl
  | cons key keys =>
    have opened : self.openKept true files = { self with ifs := some (getFileStream files self.ssTableFileName) } := by
      rw [openKept, closed]
      rfl
    have same : self.seek true files key =
        SSTableIndex.seek true files key { self with ifs := some (getFileStream files self.ssTableFileName) } := by
      rw [seek_kept]
      simp only [seek, opened]
      rfl
    rw [seekEach, same, seekEach]

/-- Keeping the stream of an SSTable open changes no answer of a sequence of
lookups exactly when no block that can be decoded comes after one that cannot,
and none at all if the kept stream has failed already. -/
theorem seekEach_iff (self : SSTableIndex) (files : Files) (keys : List Key)
    (opened : ∀ is, self.ifs = some is → is.content = (getFileStream files self.ssTableFileName).content) :
    seekEach true files keys self = seekEach false files keys self ↔
      ((∃ is, self.ifs = some is ∧ is.failbit = true) → ∀ key ∈ keys, ¬ self.Decodes files key) ∧
        keys.Pairwise fun earlier later => self.Spoils files earlier → ¬ self.Decodes files later := by
  cases stream : self.ifs with
  | none =>
    rw [seekEach_open stream, seekEach_stream _ rfl]
    have fresh : (getFileStream files self.ssTableFileName).failbit = true → ∀ key ∈ keys, ¬ self.Decodes files key := by
      rintro failed key _ ⟨startPos, endPos, _, some, whole⟩
      rw [getFileStream_working (whole.nonempty some)] at failed
      contradiction
    refine and_congr_left fun _ => iff_of_true fresh ?_
    rintro ⟨is, none, _⟩
    contradiction
  | some is =>
    have kept : self = { self with ifs := some is } := by rw [← stream]
    have compared := @seekEach_stream self files keys is (opened is stream)
    rw [← kept] at compared
    rw [compared]
    simp

/-- The index of a table of two entries in blocks of their own, and a directory
with the file of the table, the last byte of which is missing. -/
def tornSample : SSTableIndex × Files :=
  let table : SSTable := ⟨⟨0⟩, SortedMap.empty.ofEntries [(⟨otherKey⟩, newValue), (⟨sampleKey⟩, oldValue)]⟩
  match flushSSTable 1 table (genSSTableFileName 0) ∅ with
  | .ok index files =>
    (index, files.write index.ssTableFileName (getFileStream files index.ssTableFileName).content.dropLast)
  | .error _ files => (.new, files)

theorem tornSample_closed : tornSample.1.ifs = none := by decide +kernel

/-- The block in front of the torn one is found before it is tried. -/
theorem seekEach_iff_sample : seekEach true tornSample.2 [⟨otherKey⟩, ⟨sampleKey⟩] tornSample.1 =
    seekEach false tornSample.2 [⟨otherKey⟩, ⟨sampleKey⟩] tornSample.1 := by
  have opened : ∀ is, tornSample.1.ifs = some is →
      is.content = (getFileStream tornSample.2 tornSample.1.ssTableFileName).content := fun is open_ => by
    rw [tornSample_closed] at open_
    contradiction
  have block : tornSample.1.getPotentialBlockPos ⟨otherKey⟩ = some (16, 38) := by decide +kernel
  have whole : WholeEntries (getFileStream tornSample.2 tornSample.1.ssTableFileName).content 16 38 := by
    refine ⟨(getFileStream tornSample.2 tornSample.1.ssTableFileName).content.take 16, [(⟨otherKey⟩, newValue)],
      (getFileStream tornSample.2 tornSample.1.ssTableFileName).content.drop 38, ?_, ?_, ?_⟩
    · decide +kernel
    · decide +kernel
    · have start : ((getFileStream tornSample.2 tornSample.1.ssTableFileName).content.take 16).length = 16 := by
        decide +kernel
      rw [start]
      exact ⟨by decide, show (38 : Int) ≤ (16 + (entryType.serialize (⟨otherKey⟩, newValue)).length : Nat) by decide⟩
  refine (seekEach_iff tornSample.1 tornSample.2 _ opened).mpr ⟨?_, List.pairwise_pair.mpr ?_⟩
  · rintro ⟨is, open_, _⟩
    rw [tornSample_closed] at open_
    contradiction
  · rintro ⟨startPos, endPos, found, spoils⟩
    rw [block] at found
    cases found
    rcases spoils with negative | ⟨_, torn⟩
    · contradiction
    · exact absurd whole torn

/-- The other way round the kept stream does not find what a fresh one does. -/
theorem seekEach_differs :
    seekEach true tornSample.2 [⟨sampleKey⟩, ⟨otherKey⟩] tornSample.1 =
      [.error (.dbException "Invalid stream encountered!"), .error (.dbException "Invalid stream encountered!")] ∧
    seekEach false tornSample.2 [⟨sampleKey⟩, ⟨otherKey⟩] tornSample.1 =
      [.error (.dbException "Invalid stream encountered!"), .ok (some newValue)] := by
  decide +kernel

end SSTableIndex
end ProjectDb
