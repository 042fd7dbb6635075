import Mathlib.Data.List.Flatten
import Mathlib.Data.List.Forall2

/-! Cutting a list into consecutive groups. A group is measured by `σ`, takes
at least two elements, and is closed once it is full; the last group takes
what is left. -/

section Grouping
variable {α σ : Type} (start : α → σ) (grow : σ → α → σ) (full : σ → Bool)

/-- The groups from an open group on, with the element that it takes next. -/
def groupsFrom (measure : σ) (group : List α) (next : α) : List α → List (List α)
  | [] => [group ++ [next]]
  | first :: rest =>
    if full (grow measure next) then
      (group ++ [next]) :: match rest with
        | [] => [[first]]
        | second :: rest => groupsFrom (start first) [first] second rest
    else groupsFrom (grow measure next) (group ++ [next]) first rest

def groups : List α → List (List α)
  | [] => []
  | [first] => [[first]]
  | first :: second :: rest => groupsFrom start grow full (start first) [first] second rest

theorem groupsFrom_flatten (measure : σ) (group : List α) (next : α) (rest : List α) :
    (groupsFrom start grow full measure group next rest).flatten = group ++ next :: rest := by
  fun_induction groupsFrom start grow full measure group next rest with
  | case1 measure group next => simp
  | case2 measure group next first rest isFull ih =>
    cases rest with
    | nil => simp
    | cons second rest => simpa using ih
  | case3 measure group next first rest notFull ih => simp [ih]

theorem groups_flatten (xs : List α) : (groups start grow full xs).flatten = xs := by
  cases xs with
  | nil => rfl
  | cons first rest =>
    cases rest with
    | nil => rfl
    | cons second rest => exact groupsFrom_flatten start grow full _ _ _ _

theorem groupsFrom_ne_nil (measure : σ) (group : List α) (next : α) (rest : List α) :
    groupsFrom start grow full measure group next rest ≠ [] := by
  intro none
  have flat := groupsFrom_flatten start grow full measure group next rest
  rw [none] at flat
  simp at flat

/-- No group is empty. -/
theorem groupsFrom_some (measure : σ) (group : List α) (next : α) (rest : List α) :
    ∀ g ∈ groupsFrom start grow full measure group next rest, g ≠ [] := by
  fun_induction groupsFrom start grow full measure group next rest with
  | case1 measure group next => simp
  | case2 measure group next first rest isFull ih =>
    cases rest with
    | nil => simp
    | cons second rest => simpa using ih
  | case3 measure group next first rest notFull ih => exact ih

/-- A group that is not the last has two elements or more, and was closed
because it was full. `P` says what the measure of a group is; that it goes on
may depend on the group still being open. -/
theorem groupsFrom_closed {P : σ → List α → Prop} (starts : ∀ a, P (start a) [a])
    (grows : ∀ m g a, (g.length = 1 ∨ full m = false) → P m g → P (grow m a) (g ++ [a]))
    (measure : σ) (group : List α) (next : α) (rest : List α) (some : 1 ≤ group.length)
    (opened : group.length = 1 ∨ full measure = false) (holds : P measure group) :
    ∀ g ∈ (groupsFrom start grow full measure group next rest).dropLast, 2 ≤ g.length ∧ ∃ m, P m g ∧ full m = true := by
  fun_induction groupsFrom start grow full measure group next rest with
  | case1 measure group next => simp
  | case2 measure group next first rest isFull ih =>
    have closed : 2 ≤ (group ++ [next]).length ∧ ∃ m, P m (group ++ [next]) ∧ full m = true :=
      ⟨by simp only [List.length_append, List.length_singleton]; omega,
        grow measure next, grows measure group next opened holds, isFull⟩
    cases rest with
    | nil => simpa using closed
    | cons second rest =>
      have later := ih (by simp) (Or.inl rfl) (starts first)
      rw [List.dropLast_cons_of_ne_nil (groupsFrom_ne_nil start grow full _ _ _ _)]
      exact List.forall_mem_cons.mpr ⟨closed, later⟩
  | case3 measure group next first rest notFull ih =>
    exact ih (by simp) (Or.inr (by simpa using notFull)) (grows measure group next opened holds)

theorem groups_closed {P : σ → List α → Prop} (starts : ∀ a, P (start a) [a])
    (grows : ∀ m g a, (g.length = 1 ∨ full m = false) → P m g → P (grow m a) (g ++ [a])) (xs : List α) :
    ∀ g ∈ (groups start grow full xs).dropLast, 2 ≤ g.length ∧ ∃ m, P m g ∧ full m = true := by
  cases xs with
  | nil => simp [groups]
  | cons first rest =>
    cases rest with
    | nil => simp [groups]
    | cons second rest =>
      exact groupsFrom_closed start grow full starts grows _ _ _ _ (by simp) (Or.inl rfl) (starts first)

theorem groups_some (xs : List α) : ∀ g ∈ groups start grow full xs, g ≠ [] := by
  cases xs with
  | nil => simp [groups]
  | cons first rest =>
    cases rest with
    | nil => simp [groups]
    | cons second rest => exact groupsFrom_some start grow full _ _ _ _

/-- Cutting depends on the measures alone. -/
theorem groupsFrom_map {β : Type} (f : β → α) (measure : σ) (group : List β) (next : β) (rest : List β) :
    (groupsFrom (fun b => start (f b)) (fun m b => grow m (f b)) full measure group next rest).map (List.map f) =
      groupsFrom start grow full measure (group.map f) (f next) (rest.map f) := by
  fun_induction groupsFrom (fun b => start (f b)) (fun m b => grow m (f b)) full measure group next rest with
  | case1 measure group next => simp [groupsFrom]
  | case2 measure group next first rest isFull ih =>
    cases rest with
    | nil => simp [groupsFrom, isFull]
    | cons second rest => simpa [groupsFrom, isFull] using ih
  | case3 measure group next first rest notFull ih =>
    have unfolded : groupsFrom start grow full measure (group.map f) (f next) (f first :: rest.map f) =
        groupsFrom start grow full (grow measure (f next)) (group.map f ++ [f next]) (f first) (rest.map f) := by
      cases rest <;> simp [groupsFrom, notFull]
    rw [ih, List.map_cons, unfolded, List.map_append, List.map_singleton]

theorem groups_map {β : Type} (f : β → α) (xs : List β) :
    (groups (fun b => start (f b)) (fun m b => grow m (f b)) full xs).map (List.map f) =
      groups start grow full (xs.map f) := by
  cases xs with
  | nil => rfl
  | cons first rest =>
    cases rest with
    | nil => rfl
    | cons second rest => exact groupsFrom_map start grow full f _ _ _ _

/-- Lists of elements with the same measures are cut alike. -/
theorem groupsFrom_forall₂ {R : α → α → Prop} (starts : ∀ x y, R x y → start x = start y)
    (grows : ∀ m x y, R x y → grow m x = grow m y) {group group' : List α} {next next' : α} {rest rest' : List α}
    (measure : σ) (opened : List.Forall₂ R group group') (nexts : R next next') (rests : List.Forall₂ R rest rest') :
    List.Forall₂ (List.Forall₂ R) (groupsFrom start grow full measure group next rest)
      (groupsFrom start grow full measure group' next' rest') := by
  fun_induction groupsFrom start grow full measure group next rest generalizing group' next' rest' with
  | case1 measure group next =>
    cases rests
    exact .cons (List.rel_append opened (.cons nexts .nil)) .nil
  | case2 measure group next first rest isFull ih =>
    rcases rests with _ | ⟨firsts, others⟩
    rename_i first' rest'
    rw [grows measure _ _ nexts] at isFull
    cases others with
    | nil =>
      rw [groupsFrom, if_pos isFull]
      exact .cons (List.rel_append opened (.cons nexts .nil)) (.cons (.cons firsts .nil) .nil)
    | cons seconds others =>
      rw [groupsFrom, if_pos isFull, starts _ _ firsts]
      exact .cons (List.rel_append opened (.cons nexts .nil)) (starts _ _ firsts ▸ ih (.cons firsts .nil) seconds others)
  | case3 measure group next first rest notFull ih =>
    rcases rests with _ | ⟨firsts, others⟩
    rename_i first' rest'
    have later := ih (List.rel_append opened (.cons nexts .nil)) firsts others
    rw [grows measure _ _ nexts] at notFull
    have unfolded : groupsFrom start grow full measure group' next' (first' :: rest') =
        groupsFrom start grow full (grow measure next') (group' ++ [next']) first' rest' := by
      cases rest' <;> simp [groupsFrom, notFull]
    rw [unfolded, ← grows measure _ _ nexts]
    exact later

theorem groups_forall₂ {R : α → α → Prop} (starts : ∀ x y, R x y → start x = start y)
    (grows : ∀ m x y, R x y → grow m x = grow m y) {xs ys : List α} (same : List.Forall₂ R xs ys) :
    List.Forall₂ (List.Forall₂ R) (groups start grow full xs) (groups start grow full ys) := by
  cases same with
  | nil => exact .nil
  | cons first rest =>
    cases rest with
    | nil => exact .cons (.cons first .nil) .nil
    | cons second rest =>
      rw [groups, groups, starts _ _ first]
      exact groupsFrom_forall₂ start grow full starts grows _ (.cons first .nil) second rest

end Grouping
