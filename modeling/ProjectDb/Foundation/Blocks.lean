import Mathlib.Algebra.BigOperators.Group.List.Basic
import Mathlib.Data.List.MinMax
import Mathlib.Algebra.GroupWithZero.Nat

/-! Cutting a list into blocks of consecutive elements, none of them empty. A
counter measures the block that is open, and says when a new one is due. -/

/-- Some consecutive elements, at least one. -/
structure Block (α : Type) where
  first : α
  rest : List α

namespace Block
variable {α : Type}

def elements (b : Block α) : List α := b.first :: b.rest

/-- The block with one more element at its end. -/
def join (b : Block α) (x : α) : Block α := ⟨b.first, b.rest ++ [x]⟩

@[simp] theorem elements_join (b : Block α) (x : α) : (b.join x).elements = b.elements ++ [x] := rfl

section Weight
variable (weight : α → Nat)

def total (xs : List α) : Nat := (xs.map weight).sum

@[simp] theorem total_nil : total weight [] = 0 := rfl

@[simp] theorem total_cons (x : α) (xs : List α) : total weight (x :: xs) = weight x + total weight xs := by
  simp [total]

@[simp] theorem total_append (xs ys : List α) : total weight (xs ++ ys) = total weight xs + total weight ys := by
  simp [total]

/-- The block weighs less than the limit and its heaviest element together. -/
def Fine (limit : Nat) (b : Block α) : Prop :=
  ∃ largest ∈ b.elements, (∀ x ∈ b.elements, weight x ≤ weight largest) ∧
    total weight b.elements < limit + weight largest

theorem fine_of_mem {limit : Nat} {b : Block α} {x : α} (member : x ∈ b.elements)
    (light : total weight b.elements < limit + weight x) : b.Fine weight limit := by
  obtain ⟨largest, found⟩ : ∃ largest, b.elements.argmax weight = some largest :=
    Option.ne_none_iff_exists'.mp fun none => List.ne_nil_of_mem member (List.argmax_eq_none.mp none)
  have above (y) (inside : y ∈ b.elements) : weight y ≤ weight largest := List.le_of_mem_argmax inside found
  exact ⟨largest, List.argmax_mem found, above, light.trans_le (Nat.add_le_add_left (above x member) limit)⟩

/-- The first element of every block, with the weight in front of it. -/
def starts (front : Nat) : List (Block α) → List (α × Nat)
  | [] => []
  | b :: blocks => (b.first, front) :: starts (front + total weight b.elements) blocks

variable {weight}

@[simp] theorem length_starts (front : Nat) (blocks : List (Block α)) :
    (starts weight front blocks).length = blocks.length := by
  induction blocks generalizing front with
  | nil => rfl
  | cons b blocks ih => simp [starts, ih]

theorem starts_append (front : Nat) (blocks more : List (Block α)) :
    starts weight front (blocks ++ more) =
      starts weight front blocks ++ starts weight (front + total weight (blocks.flatMap elements)) more := by
  induction blocks generalizing front with
  | nil => rfl
  | cons b blocks ih => simp [starts, ih, Nat.add_assoc]

/-- A block starts behind the elements of the blocks before it. -/
theorem starts_split {front : Nat} {blocks : List (Block α)} {before after : List (α × Nat)} {p : α × Nat}
    (split : starts weight front blocks = before ++ p :: after) :
    ∃ earlier b later, blocks = earlier ++ b :: later ∧
      p = (b.first, front + total weight (earlier.flatMap elements)) ∧
      after = starts weight (front + total weight (earlier.flatMap elements ++ b.elements)) later := by
  induction blocks generalizing front before with
  | nil => simp [starts] at split
  | cons b blocks ih =>
    cases before with
    | nil =>
      obtain ⟨rfl, rfl⟩ := List.cons.inj split
      exact ⟨[], b, blocks, rfl, by simp, by simp⟩
    | cons skipped before =>
      obtain ⟨earlier, c, later, rfl, here, next⟩ := ih (List.cons.inj split).2
      exact ⟨b :: earlier, c, later, rfl, by simp [here, Nat.add_assoc], by simp [next, Nat.add_assoc]⟩

theorem starts_above {front : Nat} {blocks : List (Block α)} {p : α × Nat} (member : p ∈ starts weight front blocks) :
    front ≤ p.2 := by
  obtain ⟨before, after, split⟩ := List.append_of_mem member
  obtain ⟨_, _, _, _, rfl, _⟩ := starts_split split
  exact Nat.le_add_right ..

theorem starts_increasing (positive : ∀ x, 0 < weight x) (front : Nat) (blocks : List (Block α)) :
    (starts weight front blocks).Pairwise fun a b => a.2 < b.2 := by
  induction blocks generalizing front with
  | nil => exact .nil
  | cons b blocks ih =>
    refine List.pairwise_cons.mpr ⟨fun p member => ?_, ih _⟩
    have above := starts_above member
    have some := positive b.first
    simp only [elements, total_cons] at above ⊢
    omega

end Weight

/-- A list cut into closed blocks and the one at its end, whose counter has
this size. Every closed block has filled the counter, with so much to spare. -/
structure Cut (weight : α → Nat) (limit spare size : Nat) (xs : List α) (closed : List (Block α)) (last : Block α) :
    Prop where
  whole : (closed ++ [last]).flatMap elements = xs
  fine : ∀ b ∈ closed ++ [last], b.Fine weight limit
  few : closed.length * limit + size ≤ total weight xs + spare

namespace Cut
variable {weight : α → Nat} {limit spare size size' : Nat} {xs : List α} {closed : List (Block α)} {last : Block α} {x : α}

theorem fine_single (positive : 0 < limit) : Fine weight limit ⟨x, []⟩ :=
  fine_of_mem weight (List.mem_singleton_self x) (by simp [elements, positive])

/-- The first element opens the first block. -/
theorem start (positive : 0 < limit) (counted : size ≤ weight x) : Cut weight limit spare size [x] [] ⟨x, []⟩ where
  whole := rfl
  fine b member := by
    rw [List.mem_singleton.mp member]
    exact fine_single positive
  few := by
    simp only [List.length_nil, Nat.zero_mul, total_cons, total_nil]
    omega

/-- An element that keeps the last block small joins it. -/
theorem joined (cut : Cut weight limit 0 size xs closed last) {heavy : α} (member : heavy ∈ last.elements ++ [x])
    (light : total weight (last.elements ++ [x]) < limit + weight heavy) (counted : size' ≤ size + weight x) :
    Cut weight limit spare size' (xs ++ [x]) closed (last.join x) where
  whole := by
    rw [← cut.whole]
    simp
  fine b listed := by
    rcases List.mem_append.mp listed with old | new
    · exact cut.fine b (List.mem_append_left _ old)
    · rw [List.mem_singleton.mp new]
      exact fine_of_mem weight member light
  few := by
    have few := cut.few
    simp only [total_append, total_cons, total_nil]
    omega

/-- A full counter, or enough to spare, lets an element open the next block. -/
theorem opened (cut : Cut weight limit 0 size xs closed last) (positive : 0 < limit)
    (counted : limit + size' ≤ size + weight x + spare) :
    Cut weight limit spare size' (xs ++ [x]) (closed ++ [last]) ⟨x, []⟩ where
  whole := by
    rw [← cut.whole]
    simp [elements]
  fine b listed := by
    rcases List.mem_append.mp listed with old | new
    · exact cut.fine b old
    · rw [List.mem_singleton.mp new]
      exact fine_single positive
  few := by
    have few := cut.few
    simp only [List.length_append, List.length_singleton, Nat.add_mul, Nat.one_mul, total_append, total_cons, total_nil]
    omega

theorem starts_joined (front : Nat) (closed : List (Block α)) (last : Block α) (x : α) :
    starts weight front (closed ++ [last.join x]) = starts weight front (closed ++ [last]) := by
  rw [starts_append, starts_append]
  rfl

theorem starts_opened (cut : Cut weight limit spare size xs closed last) (front : Nat) (x : α) :
    starts weight front (closed ++ [last] ++ [⟨x, []⟩]) =
      starts weight front (closed ++ [last]) ++ [(x, front + total weight xs)] := by
  rw [starts_append, cut.whole]
  rfl

/-- With one block to spare, there are at most two more than the limit fits
into the total. -/
theorem count (cut : Cut weight limit limit size xs closed last) (positive : 0 < limit) :
    (closed ++ [last]).length ≤ 2 + total weight xs / limit := by
  have few := cut.few
  have fits : (closed.length - 1) * limit ≤ total weight xs := by
    rw [Nat.sub_mul, Nat.one_mul]
    omega
  have bound := (Nat.le_div_iff_mul_le positive).mpr fits
  rw [List.length_append, List.length_singleton]
  omega

/-- Where the block that starts here ends: where the next one starts, or
behind the last element. -/
theorem split (cut : Cut weight limit spare size xs closed last) {front : Nat} {before after : List (α × Nat)}
    {p : α × Nat} (listed : starts weight front (closed ++ [last]) = before ++ p :: after) :
    ∃ (earlier : List α) (b : Block α) (later : List α), xs = earlier ++ b.elements ++ later ∧ b.Fine weight limit ∧
      p = (b.first, front + total weight earlier) ∧
      (after.head?.map Prod.snd).getD (front + total weight xs) = front + total weight (earlier ++ b.elements) := by
  obtain ⟨earlier, b, later, blocks, here, rfl⟩ := starts_split listed
  have whole := cut.whole
  rw [blocks, List.flatMap_append, List.flatMap_cons] at whole
  refine ⟨earlier.flatMap elements, b, later.flatMap elements, by rw [← whole, List.append_assoc],
    cut.fine b (by rw [blocks]; simp), here, ?_⟩
  cases later with
  | nil => simp [starts, ← whole]
  | cons next later => rfl

end Cut
end Block
