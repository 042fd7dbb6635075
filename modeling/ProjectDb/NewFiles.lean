import ProjectDb.FileCounters
import ProjectDb.Numbering
import ProjectDb.SessionAnswers

namespace ProjectDb

/-- How the comparison of `getFilesWithExtSorted` orders the texts of two names. -/
def comesBefore (lhs rhs : String) : Except Exn Bool := do
  let x ← getCounterFromText lhs
  let y ← getCounterFromText rhs
  pure (decide (x < y))

/-- A name that the directory does not have and that comes last in it. The
counters are compared as they are read back, which fails from `2 ^ 31` on. -/
structure NewIn (files : Files) (name : FileName) : Prop where
  different : ∀ old ∈ files.names, old.extension = name.extension → old.text ≠ name.text
  later : ∀ old ∈ files.names, old.extension = name.extension →
    (comesBefore old.text name.text = .ok true ↔ name.counter < 2 ^ 31)
  last : name.counter < 2 ^ 31 → ∀ ext, name.extension = some ext → ∀ contents, ∃ sorted,
    getFilesWithExtSorted ext files = .ok sorted files ∧
      getFilesWithExtSorted ext (files.write name contents) = .ok (sorted ++ [name]) (files.write name contents)

section NewIn
variable {files : Files} {name : FileName}

theorem comesBefore_text {old new : FileName} (below : old.counter < new.counter) :
    comesBefore old.text new.text = .ok true ↔ new.counter < 2 ^ 31 := by
  unfold comesBefore
  rw [old.getCounterFromText_text, new.getCounterFromText_text]
  by_cases small : new.counter < 2 ^ 31
  · rw [if_pos small, if_pos (below.trans small)]
    refine iff_of_true ?_ small
    have less : (old.counter : Int) < new.counter := by exact_mod_cast below
    simp only [bind, Except.bind, pure, Except.pure, decide_eq_true less]
  · rw [if_neg small]
    refine iff_of_false (fun same => ?_) small
    split_ifs at same <;> cases same

/-- Sorting puts the name with the largest counter last. -/
theorem orderedInsert_last (sorted : List FileName) (below : ∀ old ∈ sorted, old.counter < name.counter) :
    List.orderedInsert (fun a b : FileName => a.counter ≤ b.counter) name sorted = sorted ++ [name] := by
  induction sorted with
  | nil => rfl
  | cons first sorted ih =>
    have above := below first (List.mem_cons_self ..)
    rw [List.orderedInsert_of_not_le _ _ (by omega), ih fun old member => below old (List.mem_cons_of_mem _ member),
      List.cons_append]

theorem NewIn.of_above
    (above : ∀ old ∈ files.names, old.extension = name.extension → old.counter < name.counter) : NewIn files name := by
  refine ⟨fun old member same text => ?_, fun old member same => comesBefore_text (above old member same),
    fun small ext isExt contents => ?_⟩
  · have less := above old member same
    rw [FileName.counter_of_text text] at less
    exact lt_irrefl _ less
  have below : ∀ old ∈ filesWithExt files ext, old.counter < name.counter := by
    intro old member
    obtain ⟨listed, same⟩ := List.mem_filter.mp member
    exact above old listed ((of_decide_eq_true same).trans isExt.symm)
  have absent : name ∉ files.names := fun member => lt_irrefl _ (above name member rfl)
  have names : filesWithExt (files.write name contents) ext = name :: filesWithExt files ext := by
    rw [filesWithExt, Directory.names_write absent, List.filter_cons, if_pos (decide_eq_true isExt), filesWithExt]
  refine ⟨(filesWithExt files ext).insertionSort fun a b => a.counter ≤ b.counter, ?_, ?_⟩
  · rw [getFilesWithExtSorted, if_neg]
    rintro ⟨_, old, member, large⟩
    have := below old member
    omega
  · rw [getFilesWithExtSorted, names, if_neg, List.insertionSort_cons, orderedInsert_last]
    · exact fun old member => below old ((List.perm_insertionSort _ _).subset member)
    · rintro ⟨_, old, member, large⟩
      rcases List.mem_cons.mp member with rfl | member
      · omega
      · have := below old member
        omega

/-- The next names are new where all counters have been used. -/
theorem Covered.newIn {c d : Counters} (covered : Covered c files) (more : c ≤ d)
    (next : name = genSSTableFileName (d.1 + 1) ∨ name = genTransactionLogFileName d.2) : NewIn files name := by
  refine NewIn.of_above fun old member same => ?_
  obtain ⟨sst, txl⟩ := (covered old member).mono more
  rcases next with rfl | rfl
  · exact Nat.lt_succ_of_le (sst same)
  · exact txl same

end NewIn

namespace ProjectDbImpl

variable {cfg : Config} {fmt : LogFormat} {permit : List SSTable → Nat → Prop} {c d : Counters}
  {db start s t : ProjectDbImpl} {files : Files} {tables : List (Nat × SSTable)} {logs : List (Nat × List Byte)}
  {name : FileName}

/-- A step from `s` to `t` generates the name of an SSTable, which the file of its
flush job has in the end, or of a log. -/
def Generates (s t : ProjectDbImpl) (name : FileName) : Prop :=
  (∃ job, t.flushToDiskFutures = s.flushToDiskFutures ++ [job] ∧ name = job.fileName.removeExt) ∨
    ∃ entry, t.memTableQueue = s.memTableQueue ++ [entry] ∧ name = entry.2.transactionLogFileName

/-- The name that is generated has the next counter. -/
theorem Grown.generates (grown : Grown d s t) (generates : Generates s t name) :
    name = genSSTableFileName (d.1 + 1) ∨ name = genTransactionLogFileName d.2 := by
  rcases generates with ⟨job, added, rfl⟩ | ⟨entry, added, rfl⟩
  · rcases grown.flushes with fewer | ⟨other, same, named⟩
    · rw [added, List.length_append, List.length_singleton] at fewer
      omega
    · rw [same] at added
      cases List.append_cancel_left added
      rw [named]
      exact Or.inl (FileName.removeExt_add ..)
  · rcases grown.logs with fewer | ⟨other, same, named⟩
    · rw [added, List.length_append, List.length_singleton] at fewer
      omega
    · rw [same] at added
      cases List.append_cancel_left added
      exact Or.inr named

/-- In every state of a session the names have counters that have been used. -/
theorem Session.numbered {events : List Event} (session : Session cfg fmt permit start events db)
    (numbered : Numbered c start) : ∃ d, c ≤ d ∧ Numbered d db := by
  induction session with
  | opened => exact ⟨c, le_rfl, numbered⟩
  | job _ step ih =>
    obtain ⟨d, more, now⟩ := ih
    exact ⟨d, more, Numbered.stable now step⟩
  | returned _ bounded path ih =>
    obtain ⟨d, more, now⟩ := ih
    obtain ⟨e, further, _, _, later⟩ := ((call_numbers fmt _ now bounded).reaches path) _ .refl
    exact ⟨e, more.trans further, later⟩
  | threw _ bounded path ih =>
    obtain ⟨d, more, now⟩ := ih
    obtain ⟨e, further, _, _, later⟩ := ((call_numbers fmt _ now bounded).reaches path) _ .refl
    exact ⟨e, more.trans further, later⟩

/-- The SSTables and logs that a database is opened on have counters below its own. -/
theorem Opened.covered (opened : Opened cfg fmt permit files start) (disk : Disk files tables logs) :
    Covered start.counters files ∧ Numbered start.counters start ∧
      ∀ job ∈ start.flushToDiskFutures, NewIn files job.fileName.removeExt := by
  obtain ⟨memory, loads⟩ := opened.loads disk
  obtain ⟨xs, rfl, inv⟩ := opened.on disk loads
  have shelf : (openedView xs logs memory).shelf = xs := List.append_nil _
  have listed (n : FileName) (member : n ∈ files.names) (isSst : n.extension = some .sst) :
      n.counter ∈ (openedView xs logs memory).shelf.map counterOf := by
    obtain ⟨bytes, found⟩ := Directory.mem_names.mp member
    obtain ⟨t, inside, rfl, _⟩ := (disk.ssTables n isSst bytes).mp found
    obtain ⟨x, onShelf, rfl⟩ := List.mem_map.mp inside
    rw [shelf]
    exact List.mem_map_of_mem onShelf
  refine ⟨fun n member => ⟨fun isSst => ?_, fun isLog => ?_⟩, inv.numbered, fun job member => ?_⟩
  · exact inv.flushing.base _ (List.mem_append_left _ (listed n member isSst))
  · obtain ⟨bytes, found⟩ := Directory.mem_names.mp member
    obtain ⟨l, logged, rfl, _⟩ := (disk.transactionLogs n isLog bytes).mp found
    exact inv.logging.base l logged
  · have pending : job ∈ start.pendingJobs (openedView xs logs memory) := member
    rw [inv.flushing.named job pending, genFlushInProgressSSTableFileName, FileName.removeExt_add]
    refine NewIn.of_above fun old member isSst => ?_
    exact (List.pairwise_append.mp inv.flushing.order).2.2 _ (listed old member isSst) _ (List.mem_map_of_mem pending)

/-- The counter of a name is read back exactly when it fits an `int`. The names
that a database generates while it is opened, and in every action of a session
after that, are those of no file that it was opened on or that is there now,
and they come after all of these wherever their counters are read back. -/
theorem generated_names (read : FileName) (cfg : Config) (fmt : LogFormat) (permit : List SSTable → Nat → Prop)
    (files : Files) (tables : List (Nat × SSTable)) (logs : List (Nat × List Byte)) (start : ProjectDbImpl) :
    (getCounterFromText read.text = .ok (read.counter : Int) ↔ read.counter < 2 ^ 31) ∧
    (Disk files tables logs → Opened cfg fmt permit files start →
      (∀ job ∈ start.flushToDiskFutures, NewIn files job.fileName.removeExt) ∧
      ∀ (events : List Event) (db : ProjectDbImpl) (call : Call) (update : ProjectDbImpl → ProjectDbImpl)
        (rest : ProjectDbImpl → DbProg (Option StdString)) (t : ProjectDbImpl) (name : FileName),
        Session cfg fmt permit start events db → db.Bounded →
        Prog.Reaches (Others cfg permit) (call.prog cfg fmt) db (.act update rest) t →
        Generates t (update t) name → NewIn files name ∧ NewIn t.files name) := by
  refine ⟨read.getCounterFromText_iff, fun disk opened => ?_⟩
  obtain ⟨covered, numbered, launched⟩ := opened.covered disk
  refine ⟨launched, fun events db call update rest t name session bounded path generates => ?_⟩
  obtain ⟨c, more, now⟩ := session.numbered numbered
  have meets := (call_numbers fmt call now bounded).reaches path
  obtain ⟨⟨d, further, here, grown⟩, _⟩ := meets t .refl
  have next := grown.generates generates
  exact ⟨covered.newIn (more.trans further) next, here.files.newIn le_rfl next⟩

/-- The first write, before the action that starts a flush with a new log. -/
def firstWrite : DbProg (Option StdString) × ProjectDbImpl :=
  Prog.advance 5 ((Call.set sampleKey oldString).prog sessionConfig transactionLog) (opened sessionConfig transactionLog)

theorem generated_names_sample : firstWrite.2.files.names = [genTransactionLogFileName 0] ∧
    NewIn firstWrite.2.files (genTransactionLogFileName 1) := by
  have generated : (firstWrite.1.action?.map fun update => decide ((update firstWrite.2).memTableQueue =
      firstWrite.2.memTableQueue ++ [(⟨1⟩, ⟨genTransactionLogFileName 1⟩)])) = some true := by decide +kernel
  obtain ⟨update, next, added⟩ := Option.map_eq_some_iff.mp generated
  obtain ⟨rest, act⟩ := Prog.action?_eq_some next
  have path := Prog.reaches_advance (Others sessionConfig anyCompaction) 5
    ((Call.set sampleKey oldString).prog sessionConfig transactionLog) (opened sessionConfig transactionLog)
  change Prog.Reaches _ _ _ firstWrite.1 firstWrite.2 at path
  rw [act] at path
  have session : Session sessionConfig transactionLog anyCompaction (opened sessionConfig transactionLog) []
      (opened sessionConfig transactionLog) := .opened
  have names := generated_names (genTransactionLogFileName 1) sessionConfig transactionLog anyCompaction ∅ [] []
    (opened sessionConfig transactionLog)
  refine ⟨by decide +kernel, ?_⟩
  exact ((names.2 disk_empty opened_opened).2 [] _ _ update rest firstWrite.2 _ session (by decide +kernel) path
    (Or.inr ⟨_, of_decide_eq_true added, rfl⟩)).2

/-- The first counter that no `int` holds. -/
theorem getCounterFromText_overflows :
    getCounterFromText (genSSTableFileName (2 ^ 31)).text = .error .outOfRange ∧
      (2 ^ 31 : Nat) < 2 ^ 32 := by
  refine ⟨?_, by decide⟩
  rw [FileName.getCounterFromText_text, if_neg]
  exact lt_irrefl _

end ProjectDbImpl
end ProjectDb
