import ProjectDb.FileCounters
import ProjectDb.Foundation.Renaming
import ProjectDb.Foundation.Prog

namespace ProjectDb

/-! The names of files as texts, and what the program does with the texts. -/

namespace Path

/-- `path::stem()` and `path::extension()` of a file name. It is cut before its
last dot, unless that begins the name or the name is `..`. -/
def cut (fileName : List Char) : List Char × List Char :=
  let letters := fileName.reverse.takeWhile (· ≠ '.')
  let stem := (fileName.reverse.drop (letters.length + 1)).reverse
  if '.' ∉ fileName ∨ stem = [] ∨ fileName = ['.', '.'] then (fileName, []) else (stem, '.' :: letters.reverse)

def extension (fileName : String) : String := String.ofList (cut fileName.toList).2

/-- `path::replace_extension()` without an argument. -/
def replaceExtension (fileName : String) : String := String.ofList (cut fileName.toList).1

def genFileName (counter : Nat) (fileExt : String) : String := "project_db" ++ "_" ++ toString counter ++ fileExt
def genDeprecatedFileName (baseFileName : String) : String := baseFileName ++ ".deprecated"
def genSSTableFileName (ssTableFileCounter : Nat) : String := genFileName ssTableFileCounter ".sst"
def genFlushInProgressSSTableFileName (baseFileName : String) : String := baseFileName ++ ".ip"
def genMergedSSTableFileName (baseFileName : String) : String := baseFileName ++ ".merged"
def genTransactionLogFileName (transactionLogFileCounter : Nat) : String := genFileName transactionLogFileCounter ".txl"

/-- The directory `DB_FILE_PATH`, whatever its files are called. -/
abbrev Paths := Directory String (List Byte)

abbrev PathM := EStateM Exn Paths

def markFileAsDeprecated (baseFileName : String) : PathM Unit := fun paths =>
  match paths.rename baseFileName (genDeprecatedFileName baseFileName) with
  | some paths => .ok () paths
  | none => .error .filesystemError paths

def removeExtAndRename (fileName : String) : PathM String := fun paths =>
  match paths.rename fileName (replaceExtension fileName) with
  | some paths => .ok (replaceExtension fileName) paths
  | none =>
    .error (.dbException ("Non-existing file path while trying to remove ext and rename: " ++
      quoted (fullFilePath fileName))) paths

def filesWithExt (paths : Paths) (ext : String) : List String := paths.names.filter fun p => extension p = ext

def removeFilesWithExt (ext : String) : PathM Unit := fun paths =>
  .ok () (paths.removeNames (filesWithExt paths ext))

/-- The counter by which names are compared. -/
def counterOf (fileName : String) : Int := ((getCounterFromText fileName).toOption).getD 0

/-- Sorted by counter. Comparing names throws when one of them has no counter. -/
def getFilesWithExtSorted (ext : String) : PathM (List String) := fun paths =>
  let names := filesWithExt paths ext
  match names.mapM getCounterFromText with
  | .ok _ => .ok (names.insertionSort fun a b => counterOf a ≤ counterOf b) paths
  | .error e => if 2 ≤ names.length then .error e paths else .ok names paths

def getFileSizeInBytes (baseFileName : String) : PathM Nat := fun paths =>
  match paths.read baseFileName with
  | some contents => .ok contents.length paths
  | none => .error .filesystemError paths

theorem cut_plain {fileName : List Char} (none : '.' ∉ fileName) : cut fileName = (fileName, []) := if_pos (Or.inl none)

theorem cut_extension {front letters : List Char} (first : front ≠ []) (plain : '.' ∉ letters) (some : letters ≠ []) :
    cut (front ++ '.' :: letters) = (front, '.' :: letters) := by
  have backwards : (front ++ '.' :: letters).reverse = letters.reverse ++ '.' :: front.reverse := by simp
  have taken : (letters.reverse ++ '.' :: front.reverse).takeWhile (· ≠ '.') = letters.reverse := by
    rw [List.takeWhile_append_of_pos fun c member => by
      simpa using fun same : c = '.' => plain (same ▸ List.mem_reverse.mp member)]
    simp
  have stem : ((letters.reverse ++ '.' :: front.reverse).drop (letters.reverse.length + 1)).reverse = front := by
    rw [List.append_cons, List.drop_left' (by simp), List.reverse_reverse]
  unfold cut
  rw [backwards]
  dsimp only
  rw [taken, stem, if_neg, List.reverse_reverse]
  rintro (none | empty | dots)
  · simp at none
  · exact first empty
  · obtain ⟨c, front, rfl⟩ := List.exists_cons_of_ne_nil first
    obtain ⟨d, letters, rfl⟩ := List.exists_cons_of_ne_nil some
    have long := congrArg List.length dots
    simp only [List.length_append, List.length_cons, List.length_nil] at long
    omega

end Path

/-- An extension is a dot and some letters. -/
theorem FileExt.toList_text (ext : FileExt) :
    ∃ letters, ext.text.toList = '.' :: letters ∧ '.' ∉ letters ∧ letters ≠ [] := by
  cases ext <;> exact ⟨_, rfl, by decide, by decide⟩

namespace FileName

theorem text_add (name : FileName) (ext : FileExt) : (name.add ext).text = name.text ++ ext.text := by
  rw [← String.toList_inj, String.toList_append, text_toList, text_toList]
  simp [add, List.append_assoc]

theorem text_ne_nil (name : FileName) : name.text.toList ≠ [] := by simp [text_toList]

theorem cut_text_add (name : FileName) (ext : FileExt) :
    Path.cut (name.add ext).text.toList = (name.text.toList, ext.text.toList) := by
  obtain ⟨letters, same, plain, some⟩ := ext.toList_text
  rw [text_add, String.toList_append, same, Path.cut_extension name.text_ne_nil plain some]

/-- A name without extensions has no dot. -/
theorem cut_text_plain (counter : Nat) : Path.cut (⟨counter, []⟩ : FileName).text.toList =
    ((⟨counter, []⟩ : FileName).text.toList, []) := by
  refine Path.cut_plain ?_
  rw [text_toList, List.mem_append, List.mem_append]
  rintro (start | digit | none)
  · exact absurd start (by decide)
  · exact absurd (digits_isDigit counter _ digit) (by decide)
  · cases none

theorem eq_nil_or_add (name : FileName) :
    (∃ counter, name = ⟨counter, []⟩) ∨ ∃ (base : FileName) (ext : FileExt), name = base.add ext := by
  obtain ⟨counter, exts⟩ := name
  rcases List.eq_nil_or_concat' exts with rfl | ⟨front, ext, rfl⟩
  · exact Or.inl ⟨counter, rfl⟩
  · exact Or.inr ⟨⟨counter, front⟩, ext, rfl⟩

theorem extension_text (name : FileName) : Path.extension name.text = (name.extension.map FileExt.text).getD "" := by
  rcases name.eq_nil_or_add with ⟨counter, rfl⟩ | ⟨base, ext, rfl⟩
  · rw [Path.extension, cut_text_plain]
    rfl
  · rw [Path.extension, cut_text_add, extension_add, String.ofList_toList]
    rfl

theorem replaceExtension_text (name : FileName) : Path.replaceExtension name.text = name.removeExt.text := by
  rcases name.eq_nil_or_add with ⟨counter, rfl⟩ | ⟨base, ext, rfl⟩
  · rw [Path.replaceExtension, cut_text_plain, String.ofList_toList]
    rfl
  · rw [Path.replaceExtension, cut_text_add, removeExt_add, String.ofList_toList]

theorem extension_iff (name : FileName) (ext : FileExt) :
    Path.extension name.text = ext.text ↔ name.extension = some ext := by
  rw [extension_text]
  cases name.extension with
  | none => cases ext <;> decide
  | some other => cases other <;> cases ext <;> decide

theorem flatMap_text_injective {es fs : List FileExt}
    (same : (es.flatMap fun e => e.text.toList) = fs.flatMap fun e => e.text.toList) : es = fs := by
  induction es generalizing fs with
  | nil =>
    cases fs with
    | nil => rfl
    | cons f fs => cases f <;> cases same
  | cons e es ih =>
    cases fs with
    | nil => cases e <;> cases same
    | cons f fs =>
      -- no extension is a prefix of another one
      have heads : e = f := by
        rw [List.flatMap_cons, List.flatMap_cons] at same
        cases e <;> cases f <;> first | rfl | simp [FileExt.text] at same
      subst heads
      rw [List.flatMap_cons, List.flatMap_cons, List.append_right_inj] at same
      rw [ih same]

/-- No two names have one text. -/
theorem text_injective : Function.Injective text := by
  rintro ⟨counter, exts⟩ ⟨other, others⟩ same
  have counters : counter = other := counter_of_text same
  subst counters
  rw [← String.toList_inj, text_toList, text_toList, List.append_right_inj, List.append_right_inj] at same
  have extensions : exts = others := flatMap_text_injective same
  rw [extensions]

end FileName

/-- The names that the program generates are the texts that it puts together. -/
theorem generated_texts (counter : Nat) (base : FileName) :
    (genSSTableFileName counter).text = Path.genSSTableFileName counter ∧
      (genTransactionLogFileName counter).text = Path.genTransactionLogFileName counter ∧
      (genFlushInProgressSSTableFileName base).text = Path.genFlushInProgressSSTableFileName base.text ∧
      (genMergedSSTableFileName base).text = Path.genMergedSSTableFileName base.text ∧
      (genDeprecatedFileName base).text = Path.genDeprecatedFileName base.text := by
  have counted (ext : FileExt) : (⟨counter, [ext]⟩ : FileName).text = Path.genFileName counter ext.text := by
    rw [← String.toList_inj, FileName.text_toList, Path.genFileName, String.toList_append, String.toList_append,
      String.toList_append, Nat.toString_eq_repr, Nat.toList_repr, List.flatMap_singleton, List.append_assoc]
    rfl
  exact ⟨counted .sst, counted .txl, base.text_add .ip, base.text_add .merged, base.text_add .deprecated⟩

/-- What the program does to its directory. -/
inductive FileCall
  | markFileAsDeprecated (name : FileName)
  | removeExtAndRename (name : FileName)
  | removeFilesWithExt (ext : FileExt)
  | getFilesWithExtSorted (ext : FileExt)
  | getFileSizeInBytes (name : FileName)
  | getCounterFromFileName (name : FileName)
  | write (name : FileName) (contents : List Byte)

inductive FileAnswer (ν : Type)
  | done
  | name (n : ν)
  | names (ns : List ν)
  | size (bytes : Nat)
  | counter (value : Int)
  deriving DecidableEq

namespace FileCall

def onNames : FileCall → FileM (FileAnswer FileName)
  | markFileAsDeprecated name => do
    ProjectDb.markFileAsDeprecated name
    pure .done
  | removeExtAndRename name => do
    let renamed ← ProjectDb.removeExtAndRename name
    pure (.name renamed)
  | removeFilesWithExt ext => do
    ProjectDb.removeFilesWithExt ext
    pure .done
  | getFilesWithExtSorted ext => do
    let names ← ProjectDb.getFilesWithExtSorted ext
    pure (.names names)
  | getFileSizeInBytes name => do
    let bytes ← ProjectDb.getFileSizeInBytes name
    pure (.size bytes)
  | getCounterFromFileName name =>
    match ProjectDb.getCounterFromFileName name with
    | .ok counter => pure (.counter counter)
    | .error e => throw e
  | write name contents => do
    modify fun files => files.write name contents
    pure .done

/-- The same on texts, with the name and the extension spelt out. -/
def onTexts : FileCall → Path.PathM (FileAnswer String)
  | markFileAsDeprecated name => do
    Path.markFileAsDeprecated name.text
    pure .done
  | removeExtAndRename name => do
    let renamed ← Path.removeExtAndRename name.text
    pure (.name renamed)
  | removeFilesWithExt ext => do
    Path.removeFilesWithExt ext.text
    pure .done
  | getFilesWithExtSorted ext => do
    let names ← Path.getFilesWithExtSorted ext.text
    pure (.names names)
  | getFileSizeInBytes name => do
    let bytes ← Path.getFileSizeInBytes name.text
    pure (.size bytes)
  | getCounterFromFileName name =>
    match getCounterFromText name.text with
    | .ok counter => pure (.counter counter)
    | .error e => throw e
  | write name contents => do
    modify fun paths => paths.write name.text contents
    pure .done

end FileCall

/-- The answers are the same up to spelling. Names of one counter may be listed in
either order. -/
inductive FileAnswer.Spells : FileAnswer FileName → FileAnswer String → Prop
  | done : Spells .done .done
  | name (n : FileName) : Spells (.name n) (.name n.text)
  | names {ns : List FileName} {texts : List String} (same : texts.Perm (ns.map FileName.text))
      (order : ns.Pairwise fun a b => a.counter ≤ b.counter)
      (sorted : texts.Pairwise fun a b => Path.counterOf a ≤ Path.counterOf b) : Spells (.names ns) (.names texts)
  | size (bytes : Nat) : Spells (.size bytes) (.size bytes)
  | counter (value : Int) : Spells (.counter value) (.counter value)

/-- The directory of the model, with the names of its files spelt out. -/
abbrev SpeltOut : Files → Path.Paths → Prop := Directory.Spells FileName.text

namespace SpeltOut
variable {files : Files} {paths : Path.Paths}

theorem markFileAsDeprecated (name : FileName) :
    EStateM.Simulates SpeltOut Eq (ProjectDb.markFileAsDeprecated name) (Path.markFileAsDeprecated name.text) := by
  intro files paths spelt
  obtain ⟨_, _, _, _, deprecated⟩ := generated_texts 0 name
  unfold ProjectDb.markFileAsDeprecated Path.markFileAsDeprecated
  rw [← deprecated]
  rcases spelt.rename FileName.text_injective name (genDeprecatedFileName name) with
    ⟨files', paths', run, run', now⟩ | ⟨none, none'⟩
  · rw [run, run']
    exact .ok rfl now
  · rw [none, none']
    exact .error _ spelt

theorem removeExtAndRename (name : FileName) :
    EStateM.Simulates SpeltOut (fun n t => t = n.text) (ProjectDb.removeExtAndRename name)
      (Path.removeExtAndRename name.text) := by
  intro files paths spelt
  unfold ProjectDb.removeExtAndRename Path.removeExtAndRename
  rw [name.replaceExtension_text]
  rcases spelt.rename FileName.text_injective name name.removeExt with ⟨files', paths', run, run', now⟩ | ⟨none, none'⟩
  · rw [run, run']
    exact .ok rfl now
  · rw [none, none']
    exact .error _ spelt

theorem filesWithExt (spelt : SpeltOut files paths) (ext : FileExt) :
    (Path.filesWithExt paths ext.text).Perm ((ProjectDb.filesWithExt files ext).map FileName.text) := by
  refine spelt.filter FileName.text_injective fun n => ?_
  rw [decide_eq_decide]
  exact n.extension_iff ext

theorem removeFilesWithExt (ext : FileExt) :
    EStateM.Simulates SpeltOut Eq (ProjectDb.removeFilesWithExt ext) (Path.removeFilesWithExt ext.text) :=
  fun _ _ spelt => .ok rfl (spelt.removeNames FileName.text_injective (filesWithExt spelt ext))

theorem getFileSizeInBytes (name : FileName) :
    EStateM.Simulates SpeltOut Eq (ProjectDb.getFileSizeInBytes name) (Path.getFileSizeInBytes name.text) := by
  intro files paths spelt
  unfold ProjectDb.getFileSizeInBytes Path.getFileSizeInBytes
  rw [spelt.read FileName.text_injective name]
  cases files.read name with
  | none => exact .error _ spelt
  | some contents => exact .ok rfl spelt

/-- The counters of all names are read, or one of them is no `int`. -/
theorem mapM_counters {texts : List String} (spelt : ∀ t ∈ texts, ∃ n : FileName, t = n.text) :
    (∃ counters, texts.mapM getCounterFromText = .ok counters ∧ ∀ n : FileName, n.text ∈ texts → n.counter < 2 ^ 31) ∨
      texts.mapM getCounterFromText = .error .outOfRange ∧ ∃ n : FileName, n.text ∈ texts ∧ 2 ^ 31 ≤ n.counter := by
  induction texts with
  | nil => exact Or.inl ⟨[], rfl, by simp⟩
  | cons t texts ih =>
    obtain ⟨n, rfl⟩ := spelt t List.mem_cons_self
    have number := n.getCounterFromText_text
    rw [List.mapM_cons, number]
    by_cases small : n.counter < 2 ^ 31
    · rw [if_pos small]
      rcases ih fun t member => spelt t (List.mem_cons_of_mem _ member) with ⟨counters, run, below⟩ | ⟨run, m, member, large⟩
      · refine Or.inl ⟨_, by rw [run]; rfl, fun m member => ?_⟩
        rcases List.mem_cons.mp member with same | later
        · rwa [FileName.text_injective same]
        · exact below m later
      · exact Or.inr ⟨by rw [run]; rfl, m, List.mem_cons_of_mem _ member, large⟩
    · rw [if_neg small]
      exact Or.inr ⟨rfl, n, List.mem_cons_self, not_lt.mp small⟩

theorem getFilesWithExtSorted (ext : FileExt) :
    EStateM.Simulates SpeltOut (fun ns texts => FileAnswer.Spells (.names ns) (.names texts))
      (ProjectDb.getFilesWithExtSorted ext) (Path.getFilesWithExtSorted ext.text) := by
  intro files paths spelt
  have same := filesWithExt spelt ext
  have total : Std.Total fun a b : FileName => a.counter ≤ b.counter := ⟨fun a b => Nat.le_total a.counter b.counter⟩
  have trans : IsTrans FileName fun a b => a.counter ≤ b.counter := ⟨fun _ _ _ => Nat.le_trans⟩
  have totalTexts : Std.Total fun a b : String => Path.counterOf a ≤ Path.counterOf b := ⟨fun a b => Int.le_total _ _⟩
  have transTexts : IsTrans String fun a b => Path.counterOf a ≤ Path.counterOf b := ⟨fun _ _ _ => Int.le_trans⟩
  have order := List.pairwise_insertionSort (fun a b : FileName => a.counter ≤ b.counter) (ProjectDb.filesWithExt files ext)
  have length : (Path.filesWithExt paths ext.text).length = (ProjectDb.filesWithExt files ext).length := by
    rw [same.length_eq, List.length_map]
  have listed (n : FileName) : n.text ∈ Path.filesWithExt paths ext.text ↔ n ∈ ProjectDb.filesWithExt files ext := by
    rw [same.mem_iff]
    exact List.mem_map_of_injective FileName.text_injective
  have spellings : ∀ t ∈ Path.filesWithExt paths ext.text, ∃ n : FileName, t = n.text := by
    intro t member
    obtain ⟨n, _, rfl⟩ := List.mem_map.mp (same.mem_iff.mp member)
    exact ⟨n, rfl⟩
  unfold ProjectDb.getFilesWithExtSorted Path.getFilesWithExtSorted
  dsimp only
  rcases mapM_counters spellings with ⟨counters, run, small⟩ | ⟨run, n, member, large⟩
  · rw [run, if_neg]
    · refine .ok (.names ?_ order (List.pairwise_insertionSort (fun a b => Path.counterOf a ≤ Path.counterOf b) _)) spelt
      exact (List.perm_insertionSort _ _).trans (same.trans ((List.perm_insertionSort _ _).symm.map _))
    · rintro ⟨_, n, member, large⟩
      exact absurd (small n ((listed n).mpr member)) (not_lt.mpr large)
  · rw [run]
    dsimp only
    rw [length]
    by_cases several : 2 ≤ (ProjectDb.filesWithExt files ext).length
    · rw [if_pos ⟨several, n, (listed n).mp member, large⟩, if_pos several]
      exact .error _ spelt
    · rw [if_neg fun both => several both.1, if_neg several]
      refine .ok (.names (same.trans ((List.perm_insertionSort _ _).symm.map _)) order ?_) spelt
      have short : (Path.filesWithExt paths ext.text).length ≤ 1 := by omega
      generalize Path.filesWithExt paths ext.text = texts at short ⊢
      rcases texts with _ | ⟨t, _ | ⟨u, more⟩⟩
      · exact .nil
      · exact List.pairwise_singleton _ _
      · simp only [List.length_cons] at short
        omega

theorem fileCall (call : FileCall) : EStateM.Simulates SpeltOut FileAnswer.Spells call.onNames call.onTexts := by
  cases call with
  | markFileAsDeprecated name => exact (markFileAsDeprecated name).bind fun _ _ _ => .pure .done
  | removeExtAndRename name =>
    refine (removeExtAndRename name).bind ?_
    rintro renamed _ rfl
    exact .pure (.name renamed)
  | removeFilesWithExt ext => exact (removeFilesWithExt ext).bind fun _ _ _ => .pure .done
  | getFilesWithExtSorted ext => exact (getFilesWithExtSorted ext).bind fun _ _ same => .pure same
  | getFileSizeInBytes name =>
    refine (getFileSizeInBytes name).bind ?_
    rintro bytes _ rfl
    exact .pure (.size bytes)
  | getCounterFromFileName name =>
    rw [FileCall.onNames, FileCall.onTexts, getCounterFromFileName_text]
    cases ProjectDb.getCounterFromFileName name with
    | ok counter => exact .pure (.counter counter)
    | error e => exact fun _ _ spelt => .error e spelt
  | write name contents =>
    refine EStateM.Simulates.bind (V := Eq) (fun _ _ spelt => .ok rfl ?_) fun _ _ _ => .pure .done
    exact spelt.write FileName.text_injective name contents

end SpeltOut

/-- Whatever the program does to its directory, in any order: doing it on the texts of the
names is doing it on the names. Every call answers the same up to spelling, or the same
exception ends both runs, and the directories stay the same up to spelling. -/
theorem calls_on_texts (calls : List FileCall) {files : Files} {paths : Path.Paths} (spelt : SpeltOut files paths) :
    EStateM.Result.Matches SpeltOut (List.Forall₂ FileAnswer.Spells) (calls.mapM FileCall.onNames files)
      (calls.mapM FileCall.onTexts paths) :=
  EStateM.Simulates.mapM SpeltOut.fileCall calls files paths spelt

/-- Two SSTables are listed and one of them is removed. -/
def listingCalls : List FileCall :=
  [.write (genSSTableFileName 10) [], .write (genSSTableFileName 2) [0], .getFilesWithExtSorted .sst,
    .markFileAsDeprecated (genSSTableFileName 2), .removeFilesWithExt .deprecated, .getFilesWithExtSorted .sst]

theorem calls_on_texts_sample : ∃ names files texts paths,
    listingCalls.mapM FileCall.onNames ∅ = .ok names files ∧ listingCalls.mapM FileCall.onTexts ∅ = .ok texts paths ∧
      texts = [.done, .done, .names ["project_db_2.sst", "project_db_10.sst"], .done, .done, .names ["project_db_10.sst"]] ∧
      List.Forall₂ FileAnswer.Spells names texts ∧ SpeltOut files paths := by
  have answers : ((listingCalls.mapM FileCall.onTexts ∅).ok?.map Prod.fst) = some [.done, .done,
      .names ["project_db_2.sst", "project_db_10.sst"], .done, .done, .names ["project_db_10.sst"]] := by decide +kernel
  obtain ⟨⟨texts, paths⟩, listed, same⟩ := Option.map_eq_some_iff.mp answers
  have run := EStateM.Result.ok?_eq_some.mp listed
  have both := calls_on_texts listingCalls (Directory.Spells.empty FileName.text)
  rw [run] at both
  generalize ends : listingCalls.mapM FileCall.onNames ∅ = result at both
  cases both with
  | ok answers spelt => exact ⟨_, _, texts, paths, rfl, run, same, answers, spelt⟩

end ProjectDb
