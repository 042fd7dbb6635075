import Mathlib.Order.Defs.Unbundled
import Mathlib.Tactic.Order
import Mathlib.Data.List.Pairwise
import Mathlib.Algebra.GroupWithZero.Nat

/-- An ordered map kept as its list of entries, strictly increasing in the
given order of keys. The sortedness travels with the value. -/
structure SortedMap (κ ν : Type) (lt : κ → κ → Prop) where
  entries : List (κ × ν)
  sorted : entries.Pairwise (fun a b => lt a.1 b.1)

namespace SortedMap
variable {κ ν : Type} {lt : κ → κ → Prop}

@[ext] theorem ext {a b : SortedMap κ ν lt} (same : a.entries = b.entries) : a = b := by
  cases a; cases b; cases same; rfl

instance [DecidableEq κ] [DecidableEq ν] : DecidableEq (SortedMap κ ν lt) := fun a b =>
  decidable_of_iff (a.entries = b.entries) ⟨ext, fun same => by rw [same]⟩

def empty : SortedMap κ ν lt := ⟨[], .nil⟩

@[simp] theorem entries_empty : (empty : SortedMap κ ν lt).entries = [] := rfl

def size (m : SortedMap κ ν lt) : Nat := m.entries.length

section Lookup
variable [DecidableRel lt]

def findIn (lt : κ → κ → Prop) [DecidableRel lt] (key : κ) : List (κ × ν) → Option ν
  | [] => none
  | (k, v) :: rest =>
    if lt key k then none else if lt k key then findIn lt key rest else some v

def find? (m : SortedMap κ ν lt) (key : κ) : Option ν := findIn lt key m.entries

/-- Assign the value of a key, adding the key when it is absent. -/
def insertIn (lt : κ → κ → Prop) [DecidableRel lt] (key : κ) (value : ν) : List (κ × ν) → List (κ × ν)
  | [] => [(key, value)]
  | (k, v) :: rest =>
    if lt key k then (key, value) :: (k, v) :: rest
    else if lt k key then (k, v) :: insertIn lt key value rest
    else (k, value) :: rest

/-- Add an entry only when no equivalent key is present. -/
def emplaceIn (lt : κ → κ → Prop) [DecidableRel lt] (key : κ) (value : ν) : List (κ × ν) → List (κ × ν)
  | [] => [(key, value)]
  | (k, v) :: rest =>
    if lt key k then (key, value) :: (k, v) :: rest
    else if lt k key then (k, v) :: emplaceIn lt key value rest
    else (k, v) :: rest

theorem mem_insertIn {key : κ} {value : ν} {e : κ × ν} {es : List (κ × ν)}
    (member : e ∈ insertIn lt key value es) : e.1 = key ∨ ∃ v, (e.1, v) ∈ es := by
  induction es with
  | nil => simp only [insertIn, List.mem_singleton] at member; exact Or.inl (by rw [member])
  | cons head rest ih =>
    obtain ⟨k, v⟩ := head
    simp only [insertIn] at member
    split_ifs at member
    · rcases List.mem_cons.mp member with rfl | old
      · exact Or.inl rfl
      · exact Or.inr ⟨e.2, old⟩
    · rcases List.mem_cons.mp member with rfl | old
      · exact Or.inr ⟨v, List.mem_cons_self ..⟩
      · rcases ih old with same | ⟨w, old⟩
        · exact Or.inl same
        · exact Or.inr ⟨w, List.mem_cons_of_mem _ old⟩
    · rcases List.mem_cons.mp member with rfl | old
      · exact Or.inr ⟨v, List.mem_cons_self ..⟩
      · exact Or.inr ⟨e.2, List.mem_cons_of_mem _ old⟩

theorem mem_emplaceIn {key : κ} {value : ν} {e : κ × ν} {es : List (κ × ν)}
    (member : e ∈ emplaceIn lt key value es) : e = (key, value) ∨ e ∈ es := by
  induction es with
  | nil => simp only [emplaceIn, List.mem_singleton] at member; exact Or.inl member
  | cons head rest ih =>
    simp only [emplaceIn] at member
    split_ifs at member
    · simpa only [List.mem_cons] using member
    · rcases List.mem_cons.mp member with rfl | old
      · exact Or.inr (List.mem_cons_self ..)
      · exact (ih old).imp_right (List.mem_cons_of_mem _)
    · exact Or.inr member

/-- An entry that is added weighs no more than it does by itself. -/
theorem sum_emplaceIn_le (weight : κ × ν → Nat) (key : κ) (value : ν) (es : List (κ × ν)) :
    ((emplaceIn lt key value es).map weight).sum ≤ (es.map weight).sum + weight (key, value) := by
  induction es with
  | nil => simp [emplaceIn]
  | cons head rest ih =>
    obtain ⟨k, v⟩ := head
    simp only [emplaceIn]
    split_ifs
    · simp only [List.map_cons, List.sum_cons]
      omega
    · simp only [List.map_cons, List.sum_cons]
      omega
    · exact Nat.le_add_right _ _

/-- A key that is not there yet adds its entry. -/
theorem sum_insertIn (weight : κ × ν → Nat) {key : κ} {value : ν} {es : List (κ × ν)} (absent : findIn lt key es = none) :
    ((insertIn lt key value es).map weight).sum = (es.map weight).sum + weight (key, value) := by
  induction es with
  | nil => simp [insertIn]
  | cons head rest ih =>
    obtain ⟨k, v⟩ := head
    simp only [findIn, insertIn] at absent ⊢
    split_ifs at absent ⊢ with below above
    · simp only [List.map_cons, List.sum_cons]
      omega
    · have grown := ih absent
      simp only [List.map_cons, List.sum_cons] at grown ⊢
      omega

end Lookup

section Build
variable [DecidableRel lt] [IsTrans κ lt]

theorem insertIn_sorted {key : κ} {value : ν} {es : List (κ × ν)}
    (sorted : es.Pairwise (fun a b => lt a.1 b.1)) :
    (insertIn lt key value es).Pairwise (fun a b => lt a.1 b.1) := by
  induction es with
  | nil => simp [insertIn]
  | cons head rest ih =>
    obtain ⟨k, v⟩ := head
    obtain ⟨above, tail⟩ := List.pairwise_cons.mp sorted
    simp only [insertIn]
    split_ifs with before after
    · refine List.pairwise_cons.mpr ⟨?_, sorted⟩
      intro e member
      rcases List.mem_cons.mp member with rfl | old
      · exact before
      · exact IsTrans.trans _ _ _ before (above e old)
    · refine List.pairwise_cons.mpr ⟨?_, ih tail⟩
      intro e member
      rcases mem_insertIn member with same | ⟨w, old⟩
      · rw [same]; exact after
      · exact above (e.1, w) old
    · exact List.pairwise_cons.mpr ⟨above, tail⟩

theorem emplaceIn_sorted {key : κ} {value : ν} {es : List (κ × ν)}
    (sorted : es.Pairwise (fun a b => lt a.1 b.1)) :
    (emplaceIn lt key value es).Pairwise (fun a b => lt a.1 b.1) := by
  induction es with
  | nil => simp [emplaceIn]
  | cons head rest ih =>
    obtain ⟨k, v⟩ := head
    obtain ⟨above, tail⟩ := List.pairwise_cons.mp sorted
    simp only [emplaceIn]
    split_ifs with before after
    · refine List.pairwise_cons.mpr ⟨?_, sorted⟩
      intro e member
      rcases List.mem_cons.mp member with rfl | old
      · exact before
      · exact IsTrans.trans _ _ _ before (above e old)
    · refine List.pairwise_cons.mpr ⟨?_, ih tail⟩
      intro e member
      rcases mem_emplaceIn member with rfl | old
      · exact after
      · exact above _ old
    · exact sorted

def insert (m : SortedMap κ ν lt) (key : κ) (value : ν) : SortedMap κ ν lt :=
  ⟨insertIn lt key value m.entries, insertIn_sorted m.sorted⟩

def emplace (m : SortedMap κ ν lt) (key : κ) (value : ν) : SortedMap κ ν lt :=
  ⟨emplaceIn lt key value m.entries, emplaceIn_sorted m.sorted⟩

@[simp] theorem entries_emplace (m : SortedMap κ ν lt) (key : κ) (value : ν) :
    (m.emplace key value).entries = emplaceIn lt key value m.entries := rfl

/-- A key above all others goes to the end. -/
theorem insertIn_append {key : κ} {value : ν} {es : List (κ × ν)} [Std.Irrefl lt]
    (above : ∀ e ∈ es, lt e.1 key) : insertIn lt key value es = es ++ [(key, value)] := by
  induction es with
  | nil => rfl
  | cons head rest ih =>
    have after := above head (List.mem_cons_self ..)
    have notBefore : ¬ lt key head.1 := fun before =>
      Std.Irrefl.irrefl key (IsTrans.trans _ _ _ before after)
    simp only [insertIn, notBefore, after, if_true, if_false, List.cons_append]
    rw [ih fun e member => above e (List.mem_cons_of_mem _ member)]

/-- Inserting in order rebuilds the list: a key above all others goes last. -/
theorem emplaceIn_append {key : κ} {value : ν} {es : List (κ × ν)} [Std.Irrefl lt]
    (above : ∀ e ∈ es, lt e.1 key) : emplaceIn lt key value es = es ++ [(key, value)] := by
  induction es with
  | nil => rfl
  | cons head rest ih =>
    have after := above head (List.mem_cons_self ..)
    have notBefore : ¬ lt key head.1 := fun before =>
      Std.Irrefl.irrefl key (IsTrans.trans _ _ _ before after)
    simp only [emplaceIn, notBefore, after, if_true, if_false, List.cons_append]
    rw [ih (fun e member => above e (List.mem_cons_of_mem _ member))]

/-- A map built by adding entries one after the other, as a hinted
insertion at the end does. -/
def ofEntries (m : SortedMap κ ν lt) (es : List (κ × ν)) : SortedMap κ ν lt :=
  es.foldl (fun acc e => acc.emplace e.1 e.2) m

theorem ofEntries_append_entries [Std.Irrefl lt] (m : SortedMap κ ν lt) (es : List (κ × ν))
    (sorted : (m.entries ++ es).Pairwise (fun a b => lt a.1 b.1)) :
    (m.ofEntries es).entries = m.entries ++ es := by
  induction es generalizing m with
  | nil => simp [ofEntries]
  | cons e es ih =>
    have above : ∀ x ∈ m.entries, lt x.1 e.1 := fun x member =>
      (List.pairwise_append.mp sorted).2.2 x member e (List.mem_cons_self ..)
    have grown : (m.emplace e.1 e.2).entries = m.entries ++ [e] := emplaceIn_append above
    have rest := ih (m.emplace e.1 e.2) (by rw [grown, List.append_assoc]; exact sorted)
    rw [grown, List.append_assoc] at rest
    exact rest

theorem ofEntries_entries [Std.Irrefl lt] (m : SortedMap κ ν lt) :
    empty.ofEntries m.entries = m :=
  ext (ofEntries_append_entries empty m.entries m.sorted)

theorem mem_ofEntries {m : SortedMap κ ν lt} {es : List (κ × ν)} {e : κ × ν} (member : e ∈ (m.ofEntries es).entries) :
    e ∈ m.entries ∨ e ∈ es := by
  induction es generalizing m with
  | nil => exact Or.inl member
  | cons x es ih =>
    rcases ih (m := m.emplace x.1 x.2) member with old | new
    · rw [entries_emplace] at old
      rcases mem_emplaceIn old with rfl | old
      · exact Or.inr (List.mem_cons_self ..)
      · exact Or.inl old
    · exact Or.inr (List.mem_cons_of_mem _ new)

theorem sum_emplace_le (weight : κ × ν → Nat) (m : SortedMap κ ν lt) (e : κ × ν) :
    ((m.emplace e.1 e.2).entries.map weight).sum ≤ (m.entries.map weight).sum + weight e :=
  sum_emplaceIn_le weight e.1 e.2 m.entries

theorem sum_ofEntries_le (weight : κ × ν → Nat) (m : SortedMap κ ν lt) (es : List (κ × ν)) :
    ((m.ofEntries es).entries.map weight).sum ≤ (m.entries.map weight).sum + (es.map weight).sum := by
  induction es generalizing m with
  | nil => exact Nat.le_add_right _ _
  | cons e rest ih =>
    have later := ih (m.emplace e.1 e.2)
    have here := sum_emplace_le weight m e
    rw [List.map_cons, List.sum_cons]
    exact later.trans (by omega)

theorem size_ofEntries_le (es : List (κ × ν)) : (ofEntries (empty : SortedMap κ ν lt) es).size ≤ es.length := by
  have counted := sum_ofEntries_le (fun _ => 1) (empty : SortedMap κ ν lt) es
  have ones (entries : List (κ × ν)) : (entries.map fun _ => 1).sum = entries.length := by
    induction entries with
    | nil => rfl
    | cons e rest ih => rw [List.map_cons, List.sum_cons, ih, List.length_cons, Nat.add_comm]
  rw [entries_empty, ones, ones, ones, List.length_nil, Nat.zero_add] at counted
  exact counted

end Build

section Linear
variable {α : Type} [LinearOrder α]

theorem findIn_eq_some {key : α} {value : ν} {es : List (α × ν)}
    (sorted : es.Pairwise (fun a b => a.1 < b.1)) :
    findIn (· < ·) key es = some value ↔ (key, value) ∈ es := by
  induction es with
  | nil => simp [findIn]
  | cons head rest ih =>
    obtain ⟨k, v⟩ := head
    obtain ⟨above, tail⟩ := List.pairwise_cons.mp sorted
    simp only [findIn, List.mem_cons, Prod.mk.injEq]
    split_ifs with before after
    · simp only [false_iff]
      rintro (⟨same, _⟩ | old)
      · exact absurd before (by rw [same]; exact lt_irrefl k)
      · exact lt_asymm before (above _ old)
    · rw [ih tail]
      exact ⟨Or.inr, fun h => h.resolve_left fun same => after.ne same.1.symm⟩
    · have same : key = k := le_antisymm (not_lt.mp after) (not_lt.mp before)
      simp only [Option.some.injEq]
      refine ⟨fun h => Or.inl ⟨same, h.symm⟩, fun h => ?_⟩
      rcases h with ⟨_, h⟩ | old
      · exact h.symm
      · exact absurd (above _ old) (by rw [same]; exact lt_irrefl k)

theorem find?_eq_some {m : SortedMap α ν (· < ·)} {key : α} {value : ν} :
    m.find? key = some value ↔ (key, value) ∈ m.entries := findIn_eq_some m.sorted

theorem find?_eq_none {m : SortedMap α ν (· < ·)} {key : α} :
    m.find? key = none ↔ ∀ value, (key, value) ∉ m.entries := by
  rw [Option.eq_none_iff_forall_not_mem]
  exact forall_congr' fun value => not_congr find?_eq_some

@[simp] theorem find?_empty (key : α) : (empty : SortedMap α ν (· < ·)).find? key = none := rfl

theorem findIn_insertIn (key x : α) (value : ν) (es : List (α × ν)) :
    findIn (· < ·) x (insertIn (· < ·) key value es) =
      if x = key then some value else findIn (· < ·) x es := by
  induction es with
  | nil =>
    simp only [insertIn, findIn]
    split_ifs <;> first | rfl | order
  | cons head rest ih =>
    simp only [insertIn]
    split_ifs <;> simp only [findIn, ih] <;> split_ifs <;> first | rfl | order

theorem findIn_below {x : α} {es : List (α × ν)} (below : ∀ e ∈ es, x < e.1) :
    findIn (· < ·) x es = none := by
  cases es with
  | nil => rfl
  | cons head rest => simp only [findIn, below head (List.mem_cons_self ..), if_true]

theorem findIn_emplaceIn (key x : α) (value : ν) {es : List (α × ν)}
    (sorted : es.Pairwise (fun a b => a.1 < b.1)) :
    findIn (· < ·) x (emplaceIn (· < ·) key value es) =
      (findIn (· < ·) x es).or (if x = key then some value else none) := by
  induction es with
  | nil =>
    simp only [emplaceIn, findIn, Option.none_or]
    split_ifs <;> first | rfl | order
  | cons head rest ih =>
    obtain ⟨above, tail⟩ := List.pairwise_cons.mp sorted
    by_cases before : key < head.1
    · simp only [emplaceIn, before, if_true, findIn]
      rcases lt_trichotomy x key with low | rfl | high
      · simp [low, low.trans before, low.ne]
      · simp [before]
      · simp [high, high.not_gt, high.ne']
    · by_cases after : head.1 < key
      · simp only [emplaceIn, before, after, if_false, if_true, findIn, ih tail]
        rcases lt_trichotomy x head.1 with low | rfl | high
        · simp [low, (low.trans after).ne]
        · simp [after.ne]
        · simp [high, high.not_gt]
      · have same : key = head.1 := le_antisymm (not_lt.mp after) (not_lt.mp before)
        simp only [emplaceIn, before, after, if_false, findIn]
        rcases lt_trichotomy x head.1 with low | rfl | high
        · simp [low, same, low.ne]
        · simp
        · simp [high, high.not_gt, same, high.ne']

@[simp] theorem find?_insert (m : SortedMap α ν (· < ·)) (key x : α) (value : ν) :
    (m.insert key value).find? x = if x = key then some value else m.find? x :=
  findIn_insertIn key x value m.entries

@[simp] theorem find?_emplace (m : SortedMap α ν (· < ·)) (key x : α) (value : ν) :
    (m.emplace key value).find? x = (m.find? x).or (if x = key then some value else none) :=
  findIn_emplaceIn key x value m.sorted

theorem find?_ofEntries (m : SortedMap α ν (· < ·)) {es : List (α × ν)}
    (sorted : es.Pairwise (fun a b => a.1 < b.1)) (x : α) :
    (m.ofEntries es).find? x = (m.find? x).or (findIn (· < ·) x es) := by
  induction es generalizing m with
  | nil => simp [ofEntries, findIn]
  | cons head rest ih =>
    obtain ⟨k, v⟩ := head
    obtain ⟨above, tail⟩ := List.pairwise_cons.mp sorted
    have absent (low : x ≤ k) : findIn (· < ·) x rest = none :=
      findIn_below fun e member => lt_of_le_of_lt low (above e member)
    have step : (m.ofEntries ((k, v) :: rest)).find? x = _ := ih (m.emplace k v) tail
    rw [step, find?_emplace, Option.or_assoc]
    congr 1
    simp only [findIn]
    rcases lt_trichotomy x k with low | rfl | high
    · simp [low, low.ne, absent low.le]
    · simp
    · simp [high, high.not_gt, high.ne']

/-- Keeping the entries of some keys does not change what is found under them. -/
theorem findIn_filter {es : List (α × ν)} (sorted : es.Pairwise (fun a b => a.1 < b.1)) {p : α → Bool}
    {key : α} (kept : p key = true) :
    findIn (· < ·) key (es.filter fun e => p e.1) = findIn (· < ·) key es := by
  ext value
  rw [findIn_eq_some (sorted.filter _), findIn_eq_some sorted, List.mem_filter]
  exact and_iff_left kept

theorem filter_split {es : List (α × ν)} (sorted : es.Pairwise (fun a b => a.1 < b.1)) (key : α) :
    es.filter (fun e => e.1 < key) ++ es.filter (fun e => key ≤ e.1) = es := by
  induction es with
  | nil => rfl
  | cons head rest ih =>
    obtain ⟨above, tail⟩ := List.pairwise_cons.mp sorted
    by_cases low : head.1 < key
    · simp [low, low.not_ge, ih tail]
    · have high : ∀ e ∈ head :: rest, key ≤ e.1 := by
        intro e member
        rcases List.mem_cons.mp member with rfl | later
        · exact not_lt.mp low
        · exact (not_lt.mp low).trans (above e later).le
      rw [List.filter_eq_nil_iff.mpr fun e member => by simpa using high e member,
        List.filter_eq_self.mpr fun e member => by simpa using high e member, List.nil_append]

/-- The entries before an entry are those with smaller keys. -/
theorem filter_before {done rest : List (α × ν)} {e : α × ν}
    (sorted : (done ++ e :: rest).Pairwise (fun a b => a.1 < b.1)) :
    (done ++ e :: rest).filter (fun x => x.1 < e.1) = done := by
  obtain ⟨_, tail, cross⟩ := List.pairwise_append.mp sorted
  have later : ∀ x ∈ e :: rest, ¬ x.1 < e.1 := by
    intro x member
    rcases List.mem_cons.mp member with rfl | after
    · exact lt_irrefl _
    · exact ((List.pairwise_cons.mp tail).1 x after).not_gt
  rw [List.filter_append, List.filter_eq_self.mpr fun x member => by
      simpa using cross x member e (List.mem_cons_self ..),
    List.filter_eq_nil_iff.mpr fun x member => by simpa using later x member, List.append_nil]

end Linear
end SortedMap
