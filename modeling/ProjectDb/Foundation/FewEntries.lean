import ProjectDb.Foundation.Layers

variable {ν : Type} {dead : ν → Bool}

@[simp] theorem history_nil : history ([] : List (Option ν)) = [] := rfl

@[simp] theorem history_append (xs ys : List (Option ν)) : history (xs ++ ys) = history xs ++ history ys :=
  List.filterMap_append

@[simp] theorem history_singleton (x : Option ν) : history [x] = x.toList := by cases x <;> rfl

theorem history_flatten (groups : List (List (Option ν))) : history groups.flatten = (groups.map history).flatten := by
  induction groups with
  | nil => rfl
  | cons group rest ih => rw [List.flatten_cons, history_append, ih, List.map_cons, List.flatten_cons]

/-- The survivor of a group is one of its entries. -/
theorem survivor_sublist (answers : List (Option ν)) : (survivor dead answers).toList.Sublist (history answers) := by
  rw [survivor_eq]
  split_ifs
  · exact List.nil_sublist _
  · cases last : (history answers).getLast? with
    | none => exact List.nil_sublist _
    | some v => exact List.singleton_sublist.mpr (List.mem_of_getLast? last)

/-- Merging groups leaves some of their entries. -/
theorem survivors_sublist (groups : List (List (Option ν))) :
    (history (groups.map (survivor dead))).Sublist (history groups.flatten) := by
  induction groups with
  | nil => exact List.Sublist.refl _
  | cons group rest ih =>
    have first : ((survivor dead group).toList ++ _).Sublist _ := (survivor_sublist group).append ih
    rwa [← history_singleton, ← history_append, ← history_append] at first

/-- A history that cancels with a deletion in it has two entries at least. -/
theorem two_le_of_cancels {entries : List ν} (cancelled : cancels dead entries = true) (some : entries ≠ []) :
    2 ≤ entries.length := by
  rcases entries with _ | ⟨v, _ | ⟨w, rest⟩⟩
  · contradiction
  · cases isDead : dead v <;> simp [cancels, trailingDead, isDead] at cancelled
  · simp

/-- An entry that resurfaces has two others above it, unless all above is empty. -/
theorem Resurfaces.three_le {histories : List (List ν)} {v : ν} (resurfaces : Resurfaces dead histories)
    (last : histories.flatten.getLast? = some v) (isDead : dead v = true) : 3 ≤ histories.flatten.length := by
  obtain ⟨older, entries, newer, w, rfl, here, live, cancelled⟩ := resurfaces
  have one : entries ≠ [] := by
    rintro rfl
    contradiction
  have above : newer.flatten ≠ [] := by
    intro empty
    rw [List.flatten_append, List.flatten_cons, empty, List.append_nil, List.getLast?_append, here] at last
    cases last
    rw [live] at isDead
    contradiction
  obtain ⟨later, member, some⟩ : ∃ later ∈ newer, later ≠ [] := by
    by_contra none
    exact above (List.flatten_eq_nil_iff.mpr fun later member => not_not.mp fun some => none ⟨later, member, some⟩)
  have two := two_le_of_cancels (cancelled later member) some
  have within := (List.sublist_flatten_of_mem member).length_le
  have length := List.length_pos_of_ne_nil one
  simp only [List.flatten_append, List.flatten_cons, List.length_append]
  omega

/-- The live entry that is looked up. -/
def alive (dead : ν → Bool) (answer : Option ν) : Option ν := answer.filter fun v => !dead v

theorem alive_dead {v : ν} (isDead : dead v = true) : alive dead (some v) = none := by
  rw [alive, Option.filter_some, isDead]
  rfl

/-- Merging changes nothing for a key that has no deletions, or two entries at most. -/
theorem alive_survivors {groups : List (List (Option ν))}
    (harmless : (∀ v ∈ history groups.flatten, dead v = false) ∨ (history groups.flatten).length ≤ 2) :
    alive dead (newestOf (groups.map (survivor dead))) = alive dead (newestOf groups.flatten) := by
  cases found : newestOf groups.flatten with
  | none => rw [newestOf_survivors_none dead found]
  | some v =>
    cases isDead : dead v with
    | false => rw [newestOf_survivors_live dead found isDead]
    | true =>
      rw [newestOf_eq_getLast?, history_flatten] at found
      rw [history_flatten] at harmless
      have gone : ¬ Resurfaces dead (groups.map history) := by
        intro resurfaces
        rcases harmless with live | few
        · rw [live v (List.mem_of_getLast? found)] at isDead
          contradiction
        · have three := resurfaces.three_le found isDead
          omega
      rw [← newestOf_survivors_iff_resurfaces] at gone
      cases left : newestOf (groups.map (survivor dead)) with
      | none => exact (alive_dead isDead).symm
      | some w =>
        have deadToo : dead w = true := by
          by_contra live
          exact gone ⟨w, left, by simpa using live⟩
        rw [alive_dead deadToo, alive_dead isDead]
