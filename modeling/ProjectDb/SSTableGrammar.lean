import ProjectDb.SerializerGrammar
import ProjectDb.SSTableFiles

namespace ProjectDb

section Plain
variable {σ : Type} (tryBuildIndex : IndexBuilder σ (Key × Value))

/-- The loop that builds an index reads entries as the plain one does. -/
theorem deserializeIndexedLoop_plain (size remaining : Nat) (currPos currBlockSize : Int) (rtn : Table) (captured : σ) :
    (deserializeIndexedLoop tryBuildIndex size currPos currBlockSize rtn remaining captured >>= fun built =>
        (pure built.1 : Decoder Exn Table)) =
      (readElements entryType.deserialize remaining >>= fun es => pure (rtn.ofEntries es.toList)) := by
  induction remaining generalizing currPos currBlockSize rtn captured with
  | zero => rfl
  | succ remaining ih =>
    funext is
    rw [deserializeIndexedLoop, readElements, bind_assoc, bind_assoc]
    cases entry : entryType.deserialize is with
    | error e broken => rw [EStateM.bind_error entry, EStateM.bind_error entry]
    | ok e next =>
      rw [EStateM.bind_ok entry, EStateM.bind_ok entry]
      rw [bind_assoc, bind_assoc, EStateM.bind_ok (show (get : Decoder Exn IStream) next = .ok next next from rfl)]
      refine (congrFun (ih _ _ _ _) next).trans ?_
      refine congrFun (congrArg _ (funext fun es => ?_)) next
      rw [pure_bind, List.Vector.toList_cons]
      rfl

/-- Building an index changes nothing of what is read, on any stream: the table,
the exception and the position of the stream are the same. -/
theorem deserializeIndexed_plain (captured : σ) :
    (deserializeIndexed tryBuildIndex captured >>= fun built => (pure built.1 : Decoder Exn Table)) =
      tableType.deserialize := by
  funext is
  rw [deserializeIndexed, bind_assoc, tableType, Serializable.deserialize]
  refine congrFun (congrArg _ (funext fun size => ?_)) is
  funext next
  rw [bind_assoc, EStateM.bind_ok (show (get : Decoder Exn IStream) next = .ok next next from rfl)]
  exact congrFun (deserializeIndexedLoop_plain tryBuildIndex _ _ _ _ _ _) next

/-- What every step of the builder keeps is kept by a decoding that returns. -/
theorem deserializeIndexedLoop_keeps {P : σ → Prop}
    (step : ∀ captured e pos size isFirstOrLastEntry, P captured →
      P (tryBuildIndex captured e pos size isFirstOrLastEntry).2)
    {size remaining : Nat} {currPos currBlockSize : Int} {rtn t : Table} {captured built : σ} {is rest : IStream}
    (holds : P captured)
    (run : deserializeIndexedLoop tryBuildIndex size currPos currBlockSize rtn remaining captured is = .ok (t, built) rest) :
    P built := by
  induction remaining generalizing currPos currBlockSize rtn captured is with
  | zero =>
    cases run
    exact holds
  | succ remaining ih =>
    obtain ⟨e, next, _, run⟩ := EStateM.bind_eq_ok run
    obtain ⟨_, last, _, run⟩ := EStateM.bind_eq_ok run
    exact ih (step _ _ _ _ _ holds) run

theorem deserializeIndexed_keeps {P : σ → Prop}
    (step : ∀ captured e pos size isFirstOrLastEntry, P captured →
      P (tryBuildIndex captured e pos size isFirstOrLastEntry).2)
    {t : Table} {captured built : σ} {is rest : IStream} (holds : P captured)
    (run : deserializeIndexed tryBuildIndex captured is = .ok (t, built) rest) : P built := by
  obtain ⟨size, next, _, run⟩ := EStateM.bind_eq_ok run
  obtain ⟨_, last, _, run⟩ := EStateM.bind_eq_ok run
  exact deserializeIndexedLoop_keeps tryBuildIndex step holds run

end Plain

section Files

/-- The words of SSTable files. -/
def SSTable.Encodes (s : SSTable) (word : List Byte) : Prop :=
  ∃ x y, word = x ++ y ∧ Serializable.metaData.Encodes x s.metaData ∧ tableType.Encodes y s.table

variable (blockSize : UInt32) {files : Files} {name : FileName} {content : List Byte}

theorem loadSSTableFrom_plain (index : Option SSTableIndex) :
    (loadSSTableFrom blockSize index >>= fun loaded => (pure loaded.1 : Decoder Exn SSTable)) =
      (Serializable.metaData.deserialize >>= fun metaData =>
        tableType.deserialize >>= fun table => pure ⟨metaData, table⟩) := by
  rw [loadSSTableFrom, bind_assoc]
  refine congrArg _ (funext fun metaData => ?_)
  rw [← deserializeIndexed_plain (tryBuildIndex? blockSize) index, bind_assoc, bind_assoc]
  rfl

theorem loadSSTableFrom_decodes (index : Option SSTableIndex) :
    Decodes (loadSSTableFrom blockSize index >>= fun loaded => (pure loaded.1 : Decoder Exn SSTable))
      fun word s => s.Encodes word := by
  rw [loadSSTableFrom_plain]
  refine (Serializable.metaData.decodes.bind fun metaData => tableType.decodes.map (SSTable.mk metaData)).congr
    fun word s => ⟨?_, ?_⟩
  · rintro ⟨x, y, rfl, here, later⟩
    exact ⟨x, y, s.metaData, rfl, here, s.table, later, rfl⟩
  · rintro ⟨x, y, metaData, rfl, here, table, later, rfl⟩
    exact ⟨x, y, rfl, here, later⟩

theorem loadSSTableFrom_asked {index built : Option SSTableIndex} {s : SSTable} {is rest : IStream}
    (run : loadSSTableFrom blockSize index is = .ok (s, built) rest) : built.isSome = index.isSome := by
  obtain ⟨metaData, next, _, run⟩ := EStateM.bind_eq_ok run
  obtain ⟨⟨table, kept⟩, last, table, run⟩ := EStateM.bind_eq_ok run
  have asked : kept.isSome = index.isSome := by
    refine deserializeIndexed_keeps (tryBuildIndex? blockSize) (P := fun built => built.isSome = index.isSome)
      (fun captured e pos size isFirstOrLastEntry same => ?_) rfl table
    cases captured with
    | none => exact same
    | some i => exact same
  obtain ⟨_, _, end_, run⟩ := EStateM.bind_eq_ok run
  cases run
  rw [Option.isSome_map]
  exact asked

/-- Any file either starts with the word of an SSTable and loads as this one,
whatever comes behind it, or throws. -/
theorem loadSSTable_cases (found : files.read name = some content) (index : Option SSTableIndex) :
    (∃ word rest s built, content = word ++ rest ∧ s.Encodes word ∧
        loadSSTable blockSize name index files = .ok (s, built) files ∧ built.isSome = index.isSome ∧
        ∀ i, built = some i → i.ssTableFileName = name) ∨
      (∀ word rest s, content = word ++ rest → ¬ SSTable.Encodes s word) ∧
        ∃ msg, loadSSTable blockSize name index files = .error (.dbException msg) files := by
  have stream : getFileStream files name = .between [] content := by simp only [getFileStream, found]
  rcases (loadSSTableFrom_decodes blockSize index).decides [] content with
    ⟨word, rest, s, split, known, run⟩ | ⟨none, e, is, run, bad, _⟩
  · obtain ⟨⟨loaded, built⟩, _, load, same⟩ := EStateM.bind_eq_ok run
    obtain ⟨rfl, rfl⟩ := EStateM.Result.ok.inj same
    refine Or.inl ⟨word, rest, loaded, built.map fun i => { i with ssTableFileName := name }, split, known, ?_, ?_, ?_⟩
    · simp only [loadSSTable, stream, load]
    · rw [Option.isSome_map]
      exact loadSSTableFrom_asked blockSize load
    · rintro i same
      obtain ⟨_, _, rfl⟩ := Option.map_eq_some_iff.mp same
      rfl
  · refine Or.inr ⟨none, ?_⟩
    have load : loadSSTableFrom blockSize index (.between [] content) = .error e is := by
      rcases EStateM.bind_eq_error run with load | ⟨_, _, _, impossible⟩
      · exact load
      · cases impossible
    cases e with
    | dbException msg => exact ⟨msg, by simp only [loadSSTable, stream, load]⟩
    | _ => simp [Exn.isDbException] at bad

/-- A file loads as an SSTable if it starts with the word of this one, and throws if it starts
with the word of none. Whether an index is built, and with which block size, makes no difference. -/
theorem loadSSTable_grammar (found : files.read name = some content) :
    (∀ s : SSTable, (∃ word, word <+: content ∧ s.Encodes word) ↔
      ∀ blockSize index, ∃ built, loadSSTable blockSize name index files = .ok (s, built) files) ∧
    ((∀ (s : SSTable) word, word <+: content → ¬ s.Encodes word) ↔
      ∀ blockSize index, ∃ msg, loadSSTable blockSize name index files = .error (.dbException msg) files) := by
  have cases := fun blockSize index => loadSSTable_cases blockSize found index
  refine ⟨fun s => ⟨?_, fun loads => ?_⟩, fun none blockSize index => ?_, fun throws s word starts known => ?_⟩
  · rintro ⟨word, ⟨rest, rfl⟩, known⟩ blockSize index
    rcases cases blockSize index with ⟨other, more, s', built, split, also, run, _⟩ | ⟨none, _⟩
    · obtain ⟨_, rfl⟩ := (loadSSTableFrom_decodes 0 none).unambiguous known also split
      exact ⟨built, run⟩
    · exact absurd known (none word rest s rfl)
  · obtain ⟨built, load⟩ := loads 0 none
    rcases cases 0 none with ⟨word, rest, s', built', rfl, known, run, _⟩ | ⟨_, msg, run⟩
    · cases load.symm.trans run
      exact ⟨word, List.prefix_append _ _, known⟩
    · cases load.symm.trans run
  · rcases cases blockSize index with ⟨word, rest, s, built, rfl, known, _⟩ | ⟨_, throws⟩
    · exact absurd known (none s word (List.prefix_append _ _))
    · exact throws
  · obtain ⟨rest, rfl⟩ := starts
    obtain ⟨msg, fails⟩ := throws 0 none
    rcases cases 0 none with ⟨_, _, _, _, _, _, run, _⟩ | ⟨impossible, _⟩
    · cases fails.symm.trans run
    · exact impossible word rest s rfl known

/-- A key that comes twice keeps its first value, and a byte behind the word is not read. -/
theorem loadSSTable_grammar_sample :
    let key : Key := ⟨⟨[107], by decide⟩⟩
    let old : Value := ⟨0, ⟨[1], by decide⟩⟩
    let new : Value := ⟨0, ⟨[2], by decide⟩⟩
    let entry (v : Value) := serializeString key.key ++ (Trivial.toBytes v.type ++ serializeString v.value)
    let content := (Trivial.toBytes (7 : UInt64) ++ (serializeSize 2 ++ [entry old, entry new].flatten)) ++ [9]
    let files : Files := (∅ : Files).write (genSSTableFileName 0) content
    ∃ built, loadSSTable 16 (genSSTableFileName 0) (some .new) files =
      .ok (⟨⟨7⟩, SortedMap.empty.emplace key old⟩, built) files := by
  intro key old new entry content files
  have found : files.read (genSSTableFileName 0) = some content := by simp [files]
  have word (v : Value) : ∃ x y, entry v = x ++ y ∧ Serializable.key.Encodes x key ∧ Serializable.value.Encodes y v :=
    ⟨_, _, rfl, rfl, rfl⟩
  refine ((loadSSTable_grammar found).1 ⟨⟨7⟩, SortedMap.empty.emplace key old⟩).mp
    ⟨_, List.prefix_append _ _, _, _, rfl, rfl, ?_⟩ 16 (some .new)
  exact ⟨[(key, old), (key, new)], by decide, by decide, _, rfl, .cons (word old) (.cons (word new) .nil)⟩

end Files

end ProjectDb
