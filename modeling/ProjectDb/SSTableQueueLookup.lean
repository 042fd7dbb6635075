import ProjectDb.SSTableIndexQueue
import ProjectDb.SSTableMerge

namespace ProjectDb

/-- What a list of tables, oldest first, has under a key: the newest entry. -/
def lookup (tables : List Table) (key : Key) : Option Value := newest SortedMap.find? tables key

/-- The tables of a queue whose elements are known. -/
def tablesOf (xs : List Indexed) : List Table := xs.map fun x => x.2.table

@[simp] theorem tablesOf_append (xs ys : List Indexed) : tablesOf (xs ++ ys) = tablesOf xs ++ tablesOf ys :=
  List.map_append

theorem tablesOf_eq (xs : List Indexed) : tablesOf xs = (xs.map Prod.snd).map fun s => s.table := by
  rw [tablesOf, List.map_map]
  rfl

/-- The elements of a queue, each an index with the table that its file holds. -/
structure OnDisk (files : Files) (queue : List SSTableIndex) (xs : List Indexed) : Prop where
  queue : xs.map Prod.fst = queue
  holds : ∀ x ∈ xs, x.1.Holds files x.2
  names : RangeNames xs

/-- Seeking may open files, but it changes neither the names nor the tables. -/
def SameElements (xs ys : List Indexed) : Prop :=
  List.Forall₂ (fun x y => x.1.ssTableFileName = y.1.ssTableFileName ∧ x.2 = y.2) xs ys

theorem SameElements.refl (xs : List Indexed) : SameElements xs xs :=
  List.forall₂_same.mpr fun _ _ => ⟨rfl, rfl⟩

theorem SameElements.tables {xs ys : List Indexed} (same : SameElements xs ys) :
    xs.map Prod.snd = ys.map Prod.snd := by
  induction same with
  | nil => rfl
  | cons head _ ih => rw [List.map_cons, List.map_cons, head.2, ih]

theorem SameElements.names {xs ys : List Indexed} (same : SameElements xs ys) :
    xs.map (fun x => x.1.ssTableFileName) = ys.map fun x => x.1.ssTableFileName := by
  induction same with
  | nil => rfl
  | cons head _ ih => rw [List.map_cons, List.map_cons, head.1, ih]

theorem RangeNames.same {xs ys : List Indexed} (names : RangeNames xs) (same : SameElements xs ys) :
    RangeNames ys := by
  refine ⟨fun y member => ?_, same.names ▸ names.nodup⟩
  have named : y.1.ssTableFileName ∈ xs.map fun x => x.1.ssTableFileName := by
    rw [same.names]
    exact List.mem_map_of_mem member
  obtain ⟨x, inside, equal⟩ := List.mem_map.mp named
  rw [← equal]
  exact names.sst x inside

namespace SSTableIndexQueue
variable (cfg : Config) {files : Files}

/-- Looking a key up in the queue finds the newest entry of its tables. -/
theorem getIn_spec {xs : List Indexed} (holds : ∀ x ∈ xs, x.1.Holds files x.2) (key : Key) :
    ∃ ys, getIn cfg files key (xs.map Prod.fst) = .ok (lookup (tablesOf xs) key) (ys.map Prod.fst) ∧
      SameElements xs ys ∧ ∀ y ∈ ys, y.1.Holds files y.2 := by
  induction xs with
  | nil => exact ⟨[], rfl, .nil, by simp⟩
  | cons x xs ih =>
    obtain ⟨ys, run, same, later⟩ := ih fun y member => holds y (List.mem_cons_of_mem _ member)
    have here := holds x (List.mem_cons_self ..)
    have answer : lookup (tablesOf (x :: xs)) key = (lookup (tablesOf xs) key).or (x.2.table.find? key) := rfl
    simp only [List.map_cons, getIn, run]
    cases found : lookup (tablesOf xs) key with
    | some value =>
      refine ⟨x :: ys, by simp only [answer, found, Option.some_or, List.map_cons], .cons ⟨rfl, rfl⟩ same, ?_⟩
      intro y member
      rcases List.mem_cons.mp member with rfl | member
      · exact here
      · exact later y member
    | none =>
      obtain ⟨sought, seek, named, still⟩ := here.seek cfg.keepSSTableFileOpen key
      refine ⟨(sought, x.2) :: ys, by simp only [seek, answer, found, Option.none_or, List.map_cons],
        .cons ⟨named.symm, rfl⟩ same, ?_⟩
      intro y member
      rcases List.mem_cons.mp member with rfl | member
      · exact still
      · exact later y member

theorem get_spec {db : ProjectDbImpl} {xs : List Indexed}
    (onDisk : OnDisk db.files db.ssTableIndexQueue.queue xs) (key : StdString) :
    ∃ ys, get cfg key db = .ok (lookup (tablesOf xs) ⟨key⟩)
        { db with ssTableIndexQueue := { db.ssTableIndexQueue with queue := ys.map Prod.fst } } ∧
      SameElements xs ys ∧ OnDisk db.files (ys.map Prod.fst) ys := by
  obtain ⟨ys, run, same, holds⟩ := getIn_spec cfg onDisk.holds ⟨key⟩
  refine ⟨ys, ?_, same, rfl, holds, onDisk.names.same same⟩
  simp only [get, ← onDisk.queue, run]

end SSTableIndexQueue
end ProjectDb
