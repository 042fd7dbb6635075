import ProjectDb.SSTableOps

namespace ProjectDb

/-- A table of the queue: its index with what its file holds. -/
abbrev Indexed := SSTableIndex × SSTable

/-- How the loop of `mergeSSTables` cuts a range. -/
def groupsOfRange (cfg : Config) (range : List Indexed) : List (List Indexed) :=
  groups (fun x => x.2.fileSize) (fun size x => addFileSize size x.2) cfg.exceedsMaxSize range

theorem groupsOfRange_tables (cfg : Config) (range : List Indexed) :
    (groupsOfRange cfg range).map (List.map Prod.snd) = groupsOfTables cfg (range.map Prod.snd) :=
  groups_map SSTable.fileSize addFileSize cfg.exceedsMaxSize Prod.snd range

theorem groupsOfRange_flatten (cfg : Config) (range : List Indexed) : (groupsOfRange cfg range).flatten = range :=
  groups_flatten _ _ _ range

/-- The index of a merged table answers for the group it was made from, under
the name of the group's first file. -/
structure Merged (files : Files) (group : List Indexed) (index : SSTableIndex) : Prop where
  holds : index.Holds files (mergeGroup (group.map Prod.snd))
  named : ∃ first, group.head? = some first ∧
    index.ssTableFileName = genMergedSSTableFileName first.1.ssTableFileName

/-- The names of a range are those of complete SSTables, all different. -/
structure RangeNames (range : List Indexed) : Prop where
  sst : ∀ x ∈ range, x.1.ssTableFileName.extension = some .sst
  nodup : (range.map fun x => x.1.ssTableFileName).Nodup

/-- A merge of a range leaves all files as they were but for deprecated ones
and for the merged files of the range. -/
def KeepsOthers (range : List Indexed) (before after : Files) : Prop :=
  ∀ n : FileName, n.extension ≠ some .deprecated →
    (∀ x ∈ range, n ≠ genMergedSSTableFileName x.1.ssTableFileName) → after.read n = before.read n

theorem KeepsOthers.sst {range : List Indexed} {before after : Files} (keeps : KeepsOthers range before after)
    {n : FileName} (notMerged : n.extension ≠ some .merged) (notDeprecated : n.extension ≠ some .deprecated) :
    after.read n = before.read n := by
  refine keeps n notDeprecated fun x _ same => notMerged ?_
  rw [same]
  exact FileName.extension_add _ _

theorem KeepsOthers.holds {range : List Indexed} {before after : Files} (keeps : KeepsOthers range before after)
    {x : Indexed} (sst : x.1.ssTableFileName.extension = some .sst) (holds : x.1.Holds before x.2) :
    x.1.Holds after x.2 :=
  holds.frame (keeps.sst (by rw [sst]; decide) (by rw [sst]; decide))

theorem loadSized_spec {cfg : Config} {files : Files} {x : Indexed} (holds : x.1.Holds files x.2) :
    loadSized cfg x.1 files = .ok (x.2, x.2.fileSize) files := by
  have load := loadSSTable_spec cfg.ssTableIndexBlockSizeInBytes holds.file holds.small
  have size : getFileSizeInBytes x.1.ssTableFileName files = .ok x.2.fileSize files := by
    simp only [getFileSizeInBytes, holds.file]
    rfl
  rw [loadSized, EStateM.bind_ok load]
  exact EStateM.bind_ok size

theorem head_append {group : List Indexed} {first : Indexed} (head : group.head? = some first) (next : Indexed) :
    (group ++ [next]).head? = some first := by
  rw [List.head?_append, head]
  rfl

/-- Merging the next table to what the open group has become. -/
theorem mergeNext_spec {cfg : Config} {files : Files} {next : Indexed} (holds : next.1.Holds files next.2)
    {group : List Indexed} {first : Indexed} (head : group.head? = some first) (size : Nat) :
    mergeNext cfg (mergeGroup (group.map Prod.snd)) size next.1 files =
      .ok (mergeGroup ((group ++ [next]).map Prod.snd), addFileSize size next.2) files := by
  obtain ⟨rest, rfl⟩ : ∃ rest, group = first :: rest := ⟨group.tail, List.eq_cons_of_mem_head? head⟩
  rw [mergeNext, EStateM.bind_ok (loadSized_spec holds)]
  simp [mergeGroup, pure, EStateM.pure, addFileSize]

/-- Flushing the merged table of one group. -/
theorem flush_group {cfg : Config} {files flushed : Files} {index : SSTableIndex} (group : List Indexed)
    {first : Indexed}
    (run : flushSSTable cfg.ssTableIndexBlockSizeInBytes (mergeGroup (group.map Prod.snd))
      (genMergedSSTableFileName first.1.ssTableFileName) files = .ok index flushed)
    (head : group.head? = some first) : Merged flushed group index ∧ KeepsOthers [first] files flushed := by
  obtain ⟨holds, named, reads⟩ := flushSSTable_spec run
  refine ⟨⟨holds, first, head, named⟩, fun n notDeprecated different => ?_⟩
  rw [reads, if_neg (different first (List.mem_singleton_self _)), if_neg notDeprecated]

theorem genMerged_injective {a b : FileName} (same : genMergedSSTableFileName a = genMergedSSTableFileName b) :
    a = b := by
  cases a
  cases b
  simpa [genMergedSSTableFileName, FileName.add] using same

theorem Merged.keeps {range : List Indexed} {before after : Files} (keeps : KeepsOthers range before after)
    {group : List Indexed} {index : SSTableIndex} (merged : Merged before group index)
    (earlier : ∀ first, group.head? = some first → ∀ x ∈ range, first.1.ssTableFileName ≠ x.1.ssTableFileName) :
    Merged after group index := by
  obtain ⟨first, head, named⟩ := merged.named
  refine ⟨merged.holds.frame (keeps _ ?_ fun x member same => ?_), first, head, named⟩
  · rw [named, genMergedSSTableFileName, FileName.extension_add]
    decide
  · rw [named] at same
    exact earlier first head x member (genMerged_injective same)

theorem RangeNames.tail {x : Indexed} {range : List Indexed} (names : RangeNames (x :: range)) :
    RangeNames range ∧ ∀ y ∈ range, x.1.ssTableFileName ≠ y.1.ssTableFileName := by
  obtain ⟨fresh, nodup⟩ := List.nodup_cons.mp names.nodup
  refine ⟨⟨fun y member => names.sst y (List.mem_cons_of_mem _ member), nodup⟩, fun y member same => fresh ?_⟩
  exact List.mem_map.mpr ⟨y, member, same.symm⟩

theorem RangeNames.sublist {range part : List Indexed} (names : RangeNames range) (inside : part.Sublist range) :
    RangeNames part :=
  ⟨fun x member => names.sst x (inside.subset member), names.nodup.sublist (inside.map _)⟩

theorem KeepsOthers.mono {range wider : List Indexed} {before after : Files} (keeps : KeepsOthers range before after)
    (inside : range ⊆ wider) : KeepsOthers wider before after :=
  fun n notDeprecated different => keeps n notDeprecated fun x member => different x (inside member)

theorem KeepsOthers.trans {range : List Indexed} {a b c : Files} (first : KeepsOthers range a b)
    (second : KeepsOthers range b c) : KeepsOthers range a c :=
  fun n notDeprecated different => (second n notDeprecated different).trans (first n notDeprecated different)

section Loop
variable {cfg : Config} {measure : Nat} {group : List Indexed} {first next curr : Indexed} {rest : List Indexed}
  {files after : Files} {rtn out : List SSTableIndex}

/-- The loop at the last table of the range. -/
theorem mergeLoop_last (head : group.head? = some first) (holds : next.1.Holds files next.2)
    (run : mergeLoop cfg first.1.ssTableFileName (mergeGroup (group.map Prod.snd)) measure rtn next.1 [] files =
      .ok out after) :
    ∃ index, out = rtn ++ [index] ∧ Merged after (group ++ [next]) index ∧ KeepsOthers [first] files after := by
  rw [mergeLoop, EStateM.bind_ok (mergeNext_spec holds head _)] at run
  obtain ⟨index, flushed, flush, done⟩ := EStateM.bind_eq_ok run
  cases done
  exact ⟨index, rfl, flush_group _ flush (head_append head next)⟩

/-- The loop where the group is full. -/
theorem mergeLoop_full (head : group.head? = some first) (holds : next.1.Holds files next.2)
    (holdsCurr : curr.1.Holds files curr.2) (sst : curr.1.ssTableFileName.extension = some .sst)
    (isFull : cfg.exceedsMaxSize (addFileSize measure next.2) = true)
    (run : mergeLoop cfg first.1.ssTableFileName (mergeGroup (group.map Prod.snd)) measure rtn next.1
      (curr.1 :: rest.map Prod.fst) files = .ok out after) :
    ∃ index flushed, Merged flushed (group ++ [next]) index ∧ KeepsOthers [first] files flushed ∧
      (match rest with
      | [] => ∃ last, out = rtn ++ [index] ++ [last] ∧ Merged after [curr] last ∧ KeepsOthers [curr] flushed after
      | second :: rest => mergeLoop cfg curr.1.ssTableFileName (mergeGroup ([curr].map Prod.snd)) curr.2.fileSize
          (rtn ++ [index]) second.1 (rest.map Prod.fst) flushed = .ok out after) := by
  rw [mergeLoop, EStateM.bind_ok (mergeNext_spec holds head _)] at run
  simp only [if_pos (of_decide_eq_true isFull)] at run
  obtain ⟨index, flushed, flush, run⟩ := EStateM.bind_eq_ok run
  obtain ⟨merged, keeps⟩ := flush_group _ flush (head_append head next)
  refine ⟨index, flushed, merged, keeps, ?_⟩
  rw [EStateM.bind_ok (loadSized_spec (keeps.holds sst holdsCurr))] at run
  cases rest with
  | nil =>
    obtain ⟨last, closed, flush, done⟩ := EStateM.bind_eq_ok run
    cases done
    exact ⟨last, rfl, flush_group [curr] flush rfl⟩
  | cons second rest => exact run

/-- The loop where the group stays open. -/
theorem mergeLoop_open (head : group.head? = some first) (holds : next.1.Holds files next.2)
    (notFull : ¬ cfg.exceedsMaxSize (addFileSize measure next.2) = true)
    (run : mergeLoop cfg first.1.ssTableFileName (mergeGroup (group.map Prod.snd)) measure rtn next.1
      (curr.1 :: rest.map Prod.fst) files = .ok out after) :
    mergeLoop cfg first.1.ssTableFileName (mergeGroup ((group ++ [next]).map Prod.snd)) (addFileSize measure next.2)
      rtn curr.1 (rest.map Prod.fst) files = .ok out after := by
  have below : ¬ cfg.ssTableApproximateMaxSizeInBytes.toNat < addFileSize measure next.2 := fun exceeds =>
    notFull (decide_eq_true exceeds)
  rw [mergeLoop, EStateM.bind_ok (mergeNext_spec holds head _)] at run
  simpa only [if_neg below] using run

end Loop

/-- The loop of `mergeSSTables` from an open group on: each group of the range
becomes one merged file, and nothing else changes. -/
theorem mergeLoop_spec {cfg : Config} (measure : Nat) (group : List Indexed) (next : Indexed) (rest : List Indexed)
    {first : Indexed} (head : group.head? = some first) {files after : Files} {rtn out : List SSTableIndex}
    (holds : ∀ x ∈ next :: rest, x.1.Holds files x.2) (names : RangeNames (first :: next :: rest))
    (run : mergeLoop cfg first.1.ssTableFileName (mergeGroup (group.map Prod.snd)) measure rtn next.1
      (rest.map Prod.fst) files = .ok out after) :
    ∃ merged : List (List Indexed × SSTableIndex),
      merged.map Prod.fst = groupsFrom (fun x => x.2.fileSize) (fun size x => addFileSize size x.2)
        cfg.exceedsMaxSize measure group next rest ∧
      out = rtn ++ merged.map Prod.snd ∧ (∀ m ∈ merged, Merged after m.1 m.2) ∧
      KeepsOthers (first :: next :: rest) files after := by
  fun_induction groupsFrom (fun x : Indexed => x.2.fileSize) (fun size x => addFileSize size x.2)
    cfg.exceedsMaxSize measure group next rest generalizing first files rtn with
  | case1 measure group next =>
    obtain ⟨index, rfl, merged, keeps⟩ := mergeLoop_last head (holds next (List.mem_cons_self ..)) run
    exact ⟨[(group ++ [next], index)], rfl, rfl, by simpa using merged, keeps.mono (by simp)⟩
  | case2 measure group next curr rest isFull ih =>
    obtain ⟨later, distinct⟩ := names.tail
    obtain ⟨index, flushed, merged, keeps, run⟩ := mergeLoop_full head (holds next (by simp)) (holds curr (by simp))
      (later.sst curr (by simp)) isFull run
    have headNext := head_append head next
    cases rest with
    | nil =>
      obtain ⟨last, rfl, lastMerged, lastKeeps⟩ := run
      have earlier := merged.keeps lastKeeps fun f same x member => by
        rw [headNext] at same
        cases same
        rw [List.mem_singleton.mp member]
        exact distinct curr (by simp)
      refine ⟨[(group ++ [next], index), ([curr], last)], rfl, by simp, ?_, ?_⟩
      · simpa using ⟨earlier, lastMerged⟩
      · exact (keeps.mono (by simp)).trans (lastKeeps.mono (by simp))
    | cons second rest =>
      have still : ∀ x ∈ second :: rest, x.1.Holds flushed x.2 := fun x member =>
        keeps.holds (later.sst x (by simp [List.mem_cons.mp member])) (holds x (by simp [List.mem_cons.mp member]))
      obtain ⟨others, groups, result, all, lastKeeps⟩ := ih rfl still later.tail.1 run
      refine ⟨(group ++ [next], index) :: others, by rw [List.map_cons, groups], by simp [result], ?_, ?_⟩
      · intro m member
        rcases List.mem_cons.mp member with rfl | member
        · refine merged.keeps lastKeeps fun f same x member => ?_
          rw [headNext] at same
          cases same
          exact distinct x (List.mem_cons_of_mem _ member)
        · exact all m member
      · exact (keeps.mono (by simp)).trans (lastKeeps.mono (by simp))
  | case3 measure group next curr rest notFull ih =>
    have run := mergeLoop_open head (holds next (by simp)) notFull run
    have skipped : (first :: curr :: rest).Sublist (first :: next :: curr :: rest) := by simp
    obtain ⟨merged, groups, result, all, keeps⟩ := ih (head_append head next)
      (fun x member => holds x (List.mem_cons_of_mem _ member)) (names.sublist skipped) run
    exact ⟨merged, groups, result, all, keeps.mono (by simp)⟩

/-- A group of tables that no file can take when it is merged. -/
def Oversized (group : List Indexed) : Prop := 2 ^ 63 ≤ (mergeGroup (group.map Prod.snd)).fileSize

theorem flush_oversized {cfg : Config} {files after : Files} {e : Exn} {name : FileName} (group : List Indexed)
    (run : flushSSTable cfg.ssTableIndexBlockSizeInBytes (mergeGroup (group.map Prod.snd)) name files =
      .error e after) : StreamFailure e ∧ Oversized group := by
  refine ⟨flushSSTable_error run, ?_⟩
  by_contra small
  obtain ⟨index, flushed, flush⟩ := flushSSTable_total (not_le.mp small)
  rw [flush] at run
  cases run

/-- The loop throws only when the table that a group is merged to is too large for a file. -/
theorem mergeLoop_oversized {cfg : Config} (measure : Nat) (group : List Indexed) (next : Indexed)
    (rest : List Indexed) {first : Indexed} (head : group.head? = some first) {files after : Files}
    {rtn : List SSTableIndex} {e : Exn} (holds : ∀ x ∈ next :: rest, x.1.Holds files x.2)
    (names : RangeNames (first :: next :: rest))
    (run : mergeLoop cfg first.1.ssTableFileName (mergeGroup (group.map Prod.snd)) measure rtn next.1
      (rest.map Prod.fst) files = .error e after) :
    StreamFailure e ∧ ∃ g ∈ groupsFrom (fun x : Indexed => x.2.fileSize) (fun size x => addFileSize size x.2)
      cfg.exceedsMaxSize measure group next rest, Oversized g := by
  fun_induction groupsFrom (fun x : Indexed => x.2.fileSize) (fun size x => addFileSize size x.2)
    cfg.exceedsMaxSize measure group next rest generalizing first files rtn with
  | case1 measure group next =>
    rw [List.map_nil, mergeLoop, EStateM.bind_ok (mergeNext_spec (holds next (List.mem_cons_self ..)) head _)] at run
    rcases EStateM.bind_eq_error run with failed | ⟨_, _, _, done⟩
    · obtain ⟨stream, large⟩ := flush_oversized (group ++ [next]) failed
      exact ⟨stream, _, List.mem_singleton_self _, large⟩
    · cases done
  | case2 measure group next curr rest isFull ih =>
    obtain ⟨later, _⟩ := names.tail
    rw [List.map_cons, mergeLoop, EStateM.bind_ok (mergeNext_spec (holds next (by simp)) head _)] at run
    simp only [if_pos (of_decide_eq_true isFull)] at run
    rcases EStateM.bind_eq_error run with failed | ⟨index, flushed, flush, run⟩
    · obtain ⟨stream, large⟩ := flush_oversized (group ++ [next]) failed
      exact ⟨stream, _, List.mem_cons_self .., large⟩
    · obtain ⟨_, keeps⟩ := flush_group _ flush (head_append head next)
      have still : ∀ x ∈ curr :: rest, x.1.Holds flushed x.2 := fun x member =>
        keeps.holds (later.sst x (List.mem_cons_of_mem _ member)) (holds x (List.mem_cons_of_mem _ member))
      rw [EStateM.bind_ok (loadSized_spec (still curr (List.mem_cons_self ..)))] at run
      cases rest with
      | nil =>
        rcases EStateM.bind_eq_error run with failed | ⟨_, _, _, done⟩
        · obtain ⟨stream, large⟩ := flush_oversized [curr] failed
          exact ⟨stream, [curr], by simp, large⟩
        · cases done
      | cons second rest =>
        obtain ⟨stream, g, member, large⟩ :=
          ih rfl (fun x member => still x (List.mem_cons_of_mem _ member)) later.tail.1 run
        exact ⟨stream, g, List.mem_cons_of_mem _ member, large⟩
  | case3 measure group next curr rest notFull ih =>
    have below : ¬ cfg.ssTableApproximateMaxSizeInBytes.toNat < addFileSize measure next.2 := fun exceeds =>
      notFull (decide_eq_true exceeds)
    rw [List.map_cons, mergeLoop, EStateM.bind_ok (mergeNext_spec (holds next (by simp)) head _)] at run
    simp only [if_neg below] at run
    have skipped : (first :: curr :: rest).Sublist (first :: next :: curr :: rest) := by simp
    exact ih (head_append head next) (fun x member => holds x (List.mem_cons_of_mem _ member)) (names.sublist skipped) run

/-- `mergeSSTables` turns the groups of its range into merged files, one each,
and of the other files only deprecated ones are gone. -/
theorem mergeSSTables_spec {cfg : Config} {range : List Indexed} {files after : Files} {out : List SSTableIndex}
    (holds : ∀ x ∈ range, x.1.Holds files x.2) (names : RangeNames range)
    (run : mergeSSTables cfg (range.map Prod.fst) files = .ok out after) :
    2 ≤ range.length ∧ ∃ merged : List (List Indexed × SSTableIndex),
      merged.map Prod.fst = groupsOfRange cfg range ∧ merged.map Prod.snd = out ∧
      (∀ m ∈ merged, Merged after m.1 m.2) ∧ KeepsOthers range files after := by
  obtain ⟨_, cleaned, clean, run⟩ := EStateM.bind_eq_ok run
  cases clean
  have untouched : KeepsOthers range files (files.removeNames (filesWithExt files .deprecated)) := by
    intro n notDeprecated _
    rw [read_removeFilesWithExt, if_neg notDeprecated]
  generalize files.removeNames (filesWithExt files .deprecated) = cleaned at run untouched
  have still : ∀ x ∈ range, x.1.Holds cleaned x.2 := fun x member =>
    untouched.holds (names.sst x member) (holds x member)
  match range, run with
  | [], run => cases run
  | [_], run => cases run
  | first :: next :: rest, run =>
    simp only [List.map_cons] at run
    rw [EStateM.bind_ok (loadSized_spec (still first (by simp)))] at run
    obtain ⟨merged, groups, result, all, keeps⟩ := mergeLoop_spec first.2.fileSize [first] next rest rfl
      (fun x member => still x (List.mem_cons_of_mem _ member)) names run
    exact ⟨by simp, merged, groups, by simp [result], all, untouched.trans keeps⟩

theorem mergeSSTables_oversized {cfg : Config} {range : List Indexed} {files after : Files} {e : Exn}
    (two : 2 ≤ range.length) (holds : ∀ x ∈ range, x.1.Holds files x.2) (names : RangeNames range)
    (run : mergeSSTables cfg (range.map Prod.fst) files = .error e after) :
    StreamFailure e ∧ ∃ g ∈ groupsOfRange cfg range, Oversized g := by
  rcases EStateM.bind_eq_error run with failed | ⟨_, cleaned, clean, run⟩
  · cases failed
  cases clean
  have still : ∀ x ∈ range, x.1.Holds (files.removeNames (filesWithExt files .deprecated)) x.2 := fun x member => by
    refine (holds x member).frame ?_
    rw [read_removeFilesWithExt, if_neg]
    rw [names.sst x member]
    decide
  match range, run with
  | [], _ => contradiction
  | [_], _ =>
    simp only [List.length_singleton] at two
    omega
  | first :: next :: rest, run =>
    simp only [List.map_cons] at run
    rw [EStateM.bind_ok (loadSized_spec (still first (by simp)))] at run
    exact mergeLoop_oversized first.2.fileSize [first] next rest rfl
      (fun x member => still x (List.mem_cons_of_mem _ member)) names run

theorem mergeSSTables_error {cfg : Config} {range : List Indexed} {files after : Files} {e : Exn}
    (two : 2 ≤ range.length) (holds : ∀ x ∈ range, x.1.Holds files x.2) (names : RangeNames range)
    (run : mergeSSTables cfg (range.map Prod.fst) files = .error e after) : StreamFailure e :=
  (mergeSSTables_oversized two holds names run).1

end ProjectDb
