import ProjectDb.IndexedSerializer
import ProjectDb.SerializerRoundTrip

namespace ProjectDb

/-- Every value takes at least one byte. -/
theorem Serializable.length_pos {α : Type} (type : Serializable α) (a : α) : 0 < (type.serialize a).length := by
  have size (n : Nat) : 0 < (serializeSize n).length := by rw [serializeSize, Trivial.toBytes_length]; decide
  have string (s : StdString) : 0 < (serializeString s).length := by
    rw [serializeString, List.length_append]
    exact Nat.add_pos_left (size _) _
  induction type with
  | trivial =>
    rw [serialize, Trivial.toBytes_length]
    exact Trivial.width_pos
  | key => exact string a.key
  | value =>
    rw [serialize, List.length_append]
    exact Nat.add_pos_right _ (string a.value)
  | metaData =>
    rw [serialize, Trivial.toBytes_length]
    decide
  | pair first second ih _ =>
    rw [serialize, List.length_append]
    exact Nat.add_pos_left (ih a.1) _
  | string => exact string a
  | vector element =>
    rw [serialize, List.length_append]
    exact Nat.add_pos_left (size _) _
  | map lt first second =>
    rw [serialize, List.length_append]
    exact Nat.add_pos_left (size _) _

/-- A container as the concept `SerializableContainer` has it: what iteration
visits, and insertion at the end. Putting some of its elements that stand next
to each other into an empty container keeps them as they are. -/
structure SerializableContainer (γ α : Type) where
  element : Serializable α
  type : Serializable γ
  elements : γ → List α
  empty : γ
  insertEnd : γ → α → γ
  serialize : ∀ c, type.serialize c = serializeSize (elements c).length ++ (elements c).flatMap element.serialize
  refill : ∀ c front part back, elements c = front ++ part ++ back → elements (part.foldl insertEnd empty) = part

namespace SerializableContainer

def vector {α : Type} (element : Serializable α) : SerializableContainer (List α) α where
  element := element
  type := .vector element
  elements xs := xs
  empty := []
  insertEnd xs x := xs ++ [x]
  serialize _ := rfl
  refill _ _ part _ _ := by simp [← List.flatMap_def]

/-- A map, whose hint of the end does not move an element from its place. -/
def map {α β : Type} (lt : α → α → Prop) [DecidableRel lt] [IsStrictOrder α lt] (first : Serializable α)
    (second : Serializable β) : SerializableContainer (SortedMap α β lt) (α × β) where
  element := .pair first second
  type := .map lt first second
  elements m := m.entries
  empty := .empty
  insertEnd m e := m.emplace e.1 e.2
  serialize _ := rfl
  refill m front part back split := by
    have sorted := m.sorted
    rw [split] at sorted
    have inner := (List.pairwise_append.mp (List.pairwise_append.mp sorted).1).2.1
    exact congrArg SortedMap.entries (SortedMap.ofEntries_entries ⟨part, inner⟩)

theorem strictOrder_key : IsStrictOrder Key (· < ·) := inferInstance

/-- The container that the blocks of an SSTable file are decoded to. -/
def table : SerializableContainer Table (Key × Value) := @map Key Value (· < ·) _ strictOrder_key .key .value

section Range
variable {γ α : Type} (C : SerializableContainer γ α)

/-- The loop of `DeserializationWrapper<T>::operator()(istream&, start, end)`.
Every element takes at least one byte, so `fuel` is the number of bytes left. -/
def deserializeRangeLoop (endPos : Int) : (fuel : Nat) → (currPos : Int) → γ → Decoder Exn γ
  | 0, _, rtn => pure rtn
  | fuel + 1, currPos, rtn =>
    if currPos < endPos then do
      let x ← C.element.deserialize
      let is ← get
      deserializeRangeLoop endPos fuel is.tellg (C.insertEnd rtn x)
    else pure rtn

def deserializeRange (startPos endPos : Int) : Decoder Exn γ := do
  modify (·.seekg startPos)
  C.deserializeRangeLoop endPos (endPos - startPos).toNat startPos C.empty

/-- The elements from a position on are decoded before the end position is
reached or passed, the last of them beginning in front of it. -/
def Covering (endPos : Int) : (pos : Nat) → List α → Prop
  | pos, [] => endPos ≤ pos
  | pos, x :: rest => (pos : Int) < endPos ∧ Covering endPos (pos + (C.element.serialize x).length) rest

theorem covering_end (pos : Nat) (xs : List α) :
    C.Covering (pos + (xs.flatMap C.element.serialize).length : Nat) pos xs := by
  induction xs generalizing pos with
  | nil => simp [Covering]
  | cons x rest ih =>
    have positive := C.element.length_pos x
    have next := ih (pos + (C.element.serialize x).length)
    rw [List.flatMap_cons, List.length_append]
    refine ⟨by omega, ?_⟩
    rwa [← Nat.add_assoc]

variable {C}

theorem deserializeRangeLoop_spec {endPos : Int} (before after : List Byte) (xs : List α) (rtn : γ) (fuel : Nat)
    (fits : ∀ x ∈ xs, C.element.Fits x) (covering : C.Covering endPos before.length xs)
    (enough : endPos - before.length ≤ fuel) :
    C.deserializeRangeLoop endPos fuel before.length rtn
        (.between before (xs.flatMap C.element.serialize ++ after)) =
      .ok (xs.foldl C.insertEnd rtn) (.between (before ++ xs.flatMap C.element.serialize) after) := by
  induction xs generalizing before rtn fuel with
  | nil =>
    have reached : ¬ (before.length : Int) < endPos := not_lt.mpr covering
    cases fuel <;> simp [deserializeRangeLoop, reached, pure, EStateM.pure]
  | cons x rest ih =>
    obtain ⟨ahead, later⟩ := covering
    obtain ⟨fuel, rfl⟩ : ∃ n, fuel = n + 1 := ⟨fuel - 1, by omega⟩
    have positive := C.element.length_pos x
    have run := (C.element.reads (fits x (List.mem_cons_self ..))).whole before
      (rest.flatMap C.element.serialize ++ after)
    have grown : (before ++ C.element.serialize x).length = before.length + (C.element.serialize x).length :=
      List.length_append
    have next := ih (before ++ C.element.serialize x) (C.insertEnd rtn x) fuel
      (fun y member => fits y (List.mem_cons_of_mem _ member)) (by rw [grown]; exact later) (by omega)
    rw [deserializeRangeLoop, if_pos ahead, List.flatMap_cons, List.append_assoc, EStateM.bind_ok run,
      EStateM.bind_ok (show (get : Decoder Exn IStream) _ = _ from rfl)]
    rw [List.foldl_cons, ← List.append_assoc before]
    exact next

/-- A range in which elements stand one after the other decodes to these,
whatever position and end-of-file bit the stream had before. -/
theorem deserializeRange_spec {endPos : Int} (before after : List Byte) (xs : List α) (is : IStream)
    (fits : ∀ x ∈ xs, C.element.Fits x) (covering : C.Covering endPos before.length xs)
    (content : is.content = before ++ xs.flatMap C.element.serialize ++ after) (working : is.failbit = false) :
    C.deserializeRange before.length endPos is =
      .ok (xs.foldl C.insertEnd C.empty) (.between (before ++ xs.flatMap C.element.serialize) after) := by
  obtain ⟨bytes, pos, eofbit, failbit⟩ := is
  subst working
  have sought : IStream.seekg ⟨bytes, pos, eofbit, false⟩ before.length =
      .between before (xs.flatMap C.element.serialize ++ after) :=
    IStream.seekg_between (by rw [← List.append_assoc]; exact content)
  rw [deserializeRange, EStateM.bind_ok (show (modify _ : Decoder Exn PUnit) _ = .ok () _ from rfl), sought]
  exact deserializeRangeLoop_spec before after xs C.empty _ fits covering (Int.self_le_toNat _)

end Range

theorem deserializeRange_table : table.deserializeRange = ProjectDb.deserializeRange := by
  have loop (endPos : Int) (fuel : Nat) (currPos : Int) (rtn : Table) :
      table.deserializeRangeLoop endPos fuel currPos rtn = ProjectDb.deserializeRangeLoop endPos fuel currPos rtn := by
    induction fuel generalizing currPos rtn with
    | zero => rfl
    | succ fuel ih =>
      simp only [deserializeRangeLoop, ProjectDb.deserializeRangeLoop, ih]
      rfl
  funext startPos endPos
  simp only [deserializeRange, ProjectDb.deserializeRange, loop]
  rfl

end SerializableContainer
end ProjectDb
