import Mathlib.Data.List.Basic
import Mathlib.Data.List.Induction

/-- The newest answer in a stack of layers, given the answers of the layers
for one key, oldest layer first. -/
def newestOf {ν : Type} : List (Option ν) → Option ν
  | [] => none
  | answer :: newer => (newestOf newer).or answer

/-- Look a key up in layers of maps, oldest layer first. -/
def newest {τ κ ν : Type} (find : τ → κ → Option ν) (layers : List τ) (key : κ) : Option ν :=
  newestOf (layers.map fun layer => find layer key)

section Newest
variable {τ κ ν : Type}

@[simp] theorem newestOf_append (xs ys : List (Option ν)) :
    newestOf (xs ++ ys) = (newestOf ys).or (newestOf xs) := by
  induction xs with
  | nil => simp [newestOf]
  | cons x xs ih => simp [newestOf, ih, Option.or_assoc]

theorem newestOf_eq_none {xs : List (Option ν)} : newestOf xs = none ↔ ∀ x ∈ xs, x = none := by
  induction xs with
  | nil => simp [newestOf]
  | cons x xs ih => simp [newestOf, ih, and_comm]

variable (find : τ → κ → Option ν)

@[simp] theorem newest_nil (key : κ) : newest find [] key = none := rfl

@[simp] theorem newest_cons (layer : τ) (newer : List τ) (key : κ) :
    newest find (layer :: newer) key = (newest find newer key).or (find layer key) := rfl

@[simp] theorem newest_append (older newer : List τ) (key : κ) :
    newest find (older ++ newer) key = (newest find newer key).or (newest find older key) := by
  simp [newest]

theorem newest_eq_none {layers : List τ} {key : κ} :
    newest find layers key = none ↔ ∀ layer ∈ layers, find layer key = none := by
  simp [newest, newestOf_eq_none]

theorem newest_mem {layers : List τ} {key : κ} {v : ν} (found : newest find layers key = some v) :
    ∃ layer ∈ layers, find layer key = some v := by
  induction layers with
  | nil => simp at found
  | cons layer newer ih =>
    rw [newest_cons, Option.or_eq_some_iff] at found
    rcases found with found | ⟨_, found⟩
    · obtain ⟨x, member, answer⟩ := ih found
      exact ⟨x, List.mem_cons_of_mem _ member, answer⟩
    · exact ⟨layer, List.mem_cons_self .., found⟩

end Newest

/-! Entries that mark a deletion are `dead`. Merging two layers drops a
deletion when the older layer has any entry for the key. -/
section Merging
variable {ν : Type} (dead : ν → Bool)

def mergeAnswer : Option ν → Option ν → Option ν
  | old, none => old
  | none, some v => some v
  | some _, some v => if dead v then none else some v

/-- What merging a group of layers from the oldest up leaves of one key. -/
def survivor (answers : List (Option ν)) : Option ν :=
  answers.foldl (mergeAnswer dead) none

/-- The entries of one key in a group of layers, oldest first. -/
def history (answers : List (Option ν)) : List ν := answers.filterMap id

def trailingDead (entries : List ν) : Nat := (entries.reverse.takeWhile dead).length

/-- Merging a history cancels it to nothing: its trailing deletions are odd in
number above a live entry, or even in number when nothing else precedes them. -/
def cancels (entries : List ν) : Bool :=
  (trailingDead dead entries + if trailingDead dead entries = entries.length then 1 else 0) % 2 = 1

theorem trailingDead_append_live {entries : List ν} {v : ν} (live : dead v = false) :
    trailingDead dead (entries ++ [v]) = 0 := by
  simp [trailingDead, live]

theorem trailingDead_append_dead {entries : List ν} {v : ν} (isDead : dead v = true) :
    trailingDead dead (entries ++ [v]) = trailingDead dead entries + 1 := by
  simp [trailingDead, isDead]

theorem cancels_append_live {entries : List ν} {v : ν} (live : dead v = false) :
    cancels dead (entries ++ [v]) = false := by
  simp [cancels, trailingDead_append_live dead live]

theorem cancels_append_dead {entries : List ν} {v : ν} (isDead : dead v = true) :
    cancels dead (entries ++ [v]) = !cancels dead entries := by
  simp only [cancels, trailingDead_append_dead dead isDead, List.length_append, List.length_singleton,
    Nat.add_right_cancel_iff]
  rw [Bool.eq_iff_iff]
  simp only [decide_eq_true_eq, Bool.not_eq_true', decide_eq_false_iff_not]
  split_ifs <;> omega

theorem survivor_history (answers : List (Option ν)) :
    survivor dead answers = survivor dead ((history answers).map some) := by
  unfold survivor history
  generalize (none : Option ν) = acc
  induction answers generalizing acc with
  | nil => rfl
  | cons answer rest ih => cases answer <;> simp [ih, mergeAnswer]

/-- The two-layer rule, iterated over a group, comes to this: nothing is left
of a cancelled history, and otherwise its newest entry is. -/
theorem survivor_eq (answers : List (Option ν)) :
    survivor dead answers = if cancels dead (history answers) then none else (history answers).getLast? := by
  rw [survivor_history]
  induction history answers using List.reverseRecOn with
  | nil => simp [survivor]
  | append_singleton entries v ih =>
    have step : survivor dead ((entries ++ [v]).map some) =
        mergeAnswer dead (survivor dead (entries.map some)) (some v) := by simp [survivor]
    rw [step, ih]
    cases isDead : dead v with
    | false =>
      simp only [cancels_append_live dead isDead, List.getLast?_append, List.getLast?_singleton]
      cases (if cancels dead entries then none else entries.getLast?) <;> simp [mergeAnswer, isDead]
    | true =>
      rw [cancels_append_dead dead isDead]
      cases gone : cancels dead entries with
      | true => simp [mergeAnswer]
      | false =>
        cases last : entries.getLast? with
        | none =>
          rw [List.getLast?_eq_none_iff] at last
          simp [last, cancels, trailingDead] at gone
        | some w => simp [mergeAnswer, isDead]

theorem newestOf_eq_getLast? (answers : List (Option ν)) : newestOf answers = (history answers).getLast? := by
  induction answers with
  | nil => rfl
  | cons answer rest ih =>
    cases answer with
    | none => simp [newestOf, history, ih]
    | some v =>
      rw [newestOf, ih]
      simp only [history, List.filterMap_cons, id_eq]
      cases last : List.filterMap id rest <;> simp [List.getLast?_cons]

theorem survivor_of_live {answers : List (Option ν)} {v : ν} (found : newestOf answers = some v)
    (live : dead v = false) : survivor dead answers = some v := by
  rw [newestOf_eq_getLast?] at found
  obtain ⟨entries, split⟩ := List.getLast?_eq_some_iff.mp found
  simp [survivor_eq, split, cancels_append_live dead live]

theorem survivor_eq_none_or (answers : List (Option ν)) :
    survivor dead answers = none ∨ survivor dead answers = newestOf answers := by
  rw [survivor_eq, newestOf_eq_getLast?]
  split_ifs
  · exact Or.inl rfl
  · exact Or.inr rfl

theorem survivor_eq_none_iff (answers : List (Option ν)) :
    survivor dead answers = none ↔ cancels dead (history answers) = true := by
  rw [survivor_eq]
  split_ifs with gone
  · simp [gone]
  · have entries : history answers ≠ [] := fun empty => gone (by rw [empty]; rfl)
    simp [gone, entries]

theorem survivor_of_none {answers : List (Option ν)} (absent : newestOf answers = none) :
    survivor dead answers = none := by
  rcases survivor_eq_none_or dead answers with gone | same
  · exact gone
  · rw [same, absent]

/-- Some group ends in a live entry of the key, and in every later group the
deletions cancel out: the live entry comes back when the groups are merged. -/
def Resurfaces (histories : List (List ν)) : Prop :=
  ∃ older entries newer v, histories = older ++ entries :: newer ∧ entries.getLast? = some v ∧
    dead v = false ∧ ∀ later ∈ newer, cancels dead later = true

theorem newestOf_survivors_none {groups : List (List (Option ν))} (absent : newestOf groups.flatten = none) :
    newestOf (groups.map (survivor dead)) = none := by
  induction groups with
  | nil => rfl
  | cons group rest ih =>
    rw [List.flatten_cons, newestOf_append, Option.or_eq_none_iff] at absent
    rw [List.map_cons, newestOf, ih absent.1, survivor_of_none dead absent.2]
    rfl

theorem newestOf_survivors_live {groups : List (List (Option ν))} {v : ν}
    (found : newestOf groups.flatten = some v) (live : dead v = false) :
    newestOf (groups.map (survivor dead)) = some v := by
  induction groups with
  | nil => simp [newestOf] at found
  | cons group rest ih =>
    rw [List.flatten_cons, newestOf_append, Option.or_eq_some_iff] at found
    rw [List.map_cons, newestOf, Option.or_eq_some_iff]
    rcases found with found | ⟨absent, found⟩
    · exact Or.inl (ih found)
    · exact Or.inr ⟨newestOf_survivors_none dead absent, survivor_of_live dead found live⟩

theorem newestOf_survivors_iff_resurfaces (groups : List (List (Option ν))) :
    (∃ v, newestOf (groups.map (survivor dead)) = some v ∧ dead v = false) ↔
      Resurfaces dead (groups.map history) := by
  induction groups with
  | nil => simp [newestOf, Resurfaces]
  | cons group rest ih =>
    have later : newestOf (rest.map (survivor dead)) = none ↔
        ∀ entries ∈ rest.map history, cancels dead entries = true := by
      simp [newestOf_eq_none, survivor_eq_none_iff]
    rw [List.map_cons, List.map_cons, newestOf]
    constructor
    · rintro ⟨v, found, live⟩
      rcases Option.or_eq_some_iff.mp found with found | ⟨absent, found⟩
      · obtain ⟨older, entries, newer, w, split, last⟩ := ih.mp ⟨v, found, live⟩
        exact ⟨history group :: older, entries, newer, w, by rw [split]; rfl, last⟩
      · have whole : newestOf group = some v := by
          rcases survivor_eq_none_or dead group with gone | same
          · rw [gone] at found; contradiction
          · rw [← same, found]
        exact ⟨[], history group, rest.map history, v, rfl,
          by rw [← newestOf_eq_getLast?, whole], live, later.mp absent⟩
    · rintro ⟨older, entries, newer, v, split, last, live, cancelled⟩
      cases older with
      | nil =>
        obtain ⟨rfl, rfl⟩ := List.cons.inj split
        have whole : newestOf group = some v := by rw [newestOf_eq_getLast?, last]
        exact ⟨v, by rw [later.mpr cancelled, survivor_of_live dead whole live]; rfl, live⟩
      | cons first older =>
        obtain ⟨_, split⟩ := List.cons.inj split
        obtain ⟨w, found, live⟩ := ih.mpr ⟨older, entries, newer, v, split, last, live, cancelled⟩
        exact ⟨w, by rw [found]; rfl, live⟩

end Merging
