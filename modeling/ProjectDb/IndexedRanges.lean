import ProjectDb.IndexedLoops

namespace ProjectDb

section Recording
variable {σ α : Type} (element : Serializable α) (tryBuildIndex : IndexBuilder σ α)

/-- A builder that also keeps the elements and positions it is called with. -/
def recorded : IndexBuilder (σ × List (α × Int)) α :=
  fun captured x pos currBlockSize isFirstOrLastEntry =>
    let (indexAdded, inner) := tryBuildIndex captured.1 x pos currBlockSize isFirstOrLastEntry
    (indexAdded, inner, captured.2 ++ [(x, pos)])

/-- Keeping the calls changes neither the bytes nor what the builder captures. -/
theorem serializeIndexedLoop_recorded (xs : List α) (isFirst : Bool) (currPos currBlockSize : Int) (os : List Byte)
    (captured : σ) (calls : List (α × Int)) :
    let result := serializeIndexedLoop element (recorded tryBuildIndex) isFirst currPos currBlockSize xs os
      (captured, calls)
    (result.1, result.2.1) = serializeIndexedLoop element tryBuildIndex isFirst currPos currBlockSize xs os captured := by
  induction xs generalizing isFirst currPos currBlockSize os captured calls with
  | nil => rfl
  | cons x rest ih => exact ih ..

theorem serializeIndexed_recorded (xs : List α) (os : List Byte) (captured : σ) :
    let result := serializeIndexed element (recorded tryBuildIndex) xs os (captured, [])
    (result.1, result.2.1) = serializeIndexed element tryBuildIndex xs os captured :=
  serializeIndexedLoop_recorded ..

end Recording

namespace SerializableContainer
variable {γ α σ : Type} (C : SerializableContainer γ α)

/-- Where the encoding of the `i`-th element starts when a container is written
behind some bytes; behind its last element, the end of the data. -/
def offset (os : List Byte) (c : γ) (i : Nat) : Int :=
  tellp (os ++ serializeSize (C.elements c).length ++ ((C.elements c).take i).flatMap C.element.serialize)

variable {C} {c : γ} {os : List Byte}

theorem offset_split {front rest : List α} (split : C.elements c = front ++ rest) :
    C.offset os c front.length =
      (os ++ serializeSize (C.elements c).length ++ front.flatMap C.element.serialize).length := by
  rw [offset, split, List.take_left]
  rfl

theorem calls_recorded (c : γ) (os : List Byte) (tryBuildIndex : IndexBuilder σ α) (captured : σ) :
    (serializeIndexed C.element (recorded tryBuildIndex) (C.elements c) os (captured, [])).2.2 =
      (C.elements c).zipIdx.map fun p => (p.1, C.offset os c p.2) := by
  refine (serializeIndexed_spec C.element (recorded tryBuildIndex)
    (fun done captured => captured.2 = done.zipIdx.map fun p => (p.1, C.offset os c p.2))
    os (C.elements c) (captured, []) rfl ?_).2
  intro done x rest captured size split calls
  simp [recorded, calls, List.zipIdx_append, offset_split split]

theorem written_eq (c : γ) (os : List Byte) (tryBuildIndex : IndexBuilder σ α) (captured : σ) :
    (serializeIndexed C.element tryBuildIndex (C.elements c) os captured).1 =
      os ++ serializeSize (C.elements c).length ++ (C.elements c).flatMap C.element.serialize := by
  rw [List.append_assoc]
  exact (serializeIndexed_spec C.element tryBuildIndex (fun _ _ => True) os (C.elements c) captured trivial
    fun _ _ _ _ _ _ _ => trivial).1

/-- The range between two offsets holds the elements between them. -/
theorem deserializeRange_between {front part back : List α} (split : C.elements c = front ++ part ++ back)
    (fits : ∀ x ∈ part, C.element.Fits x) (more : List Byte) (is : IStream) (working : is.failbit = false)
    (content : is.content =
      os ++ serializeSize (C.elements c).length ++ (C.elements c).flatMap C.element.serialize ++ more) :
    ∃ range left, C.deserializeRange (C.offset os c front.length) (C.offset os c (front ++ part).length) is =
        .ok range left ∧
      C.elements range = part ∧ left.tellg = C.offset os c (front ++ part).length := by
  have starts : C.offset os c front.length = _ := offset_split (split.trans (List.append_assoc ..))
  have ends : C.offset os c (front ++ part).length = _ := offset_split split
  have covering := C.covering_end
    (os ++ serializeSize (C.elements c).length ++ front.flatMap C.element.serialize).length part
  rw [List.flatMap_append, ← List.append_assoc] at ends
  rw [← List.length_append, ← ends] at covering
  have decode := deserializeRange_spec (os ++ serializeSize (C.elements c).length ++ front.flatMap C.element.serialize)
    (back.flatMap C.element.serialize ++ more) part is fits covering (by rw [content, split]; simp) working
  refine ⟨_, _, by rw [starts]; exact decode, C.refill c front part back split, ?_⟩
  rw [IStream.tellg_between, ends]

/-- A container written with any index builder has the bytes that it has
without one; the builder is given the offset of every element; and the range
from one of these to another decodes to the elements between them. -/
theorem indexed_ranges (C : SerializableContainer γ α) (c : γ) (fits : ∀ x ∈ C.elements c, C.element.Fits x)
    (os : List Byte) (tryBuildIndex : IndexBuilder σ α) (captured : σ) :
    let written := (serializeIndexed C.element tryBuildIndex (C.elements c) os captured).1
    let withCalls := serializeIndexed C.element (recorded tryBuildIndex) (C.elements c) os (captured, [])
    written = os ++ C.type.serialize c ∧
      (withCalls.1, withCalls.2.1) = serializeIndexed C.element tryBuildIndex (C.elements c) os captured ∧
      withCalls.2.2 = (C.elements c).zipIdx.map (fun p => (p.1, C.offset os c p.2)) ∧
      (∀ front x back, C.elements c = front ++ x :: back → ∃ before after,
        written = before ++ C.element.serialize x ++ after ∧ C.offset os c front.length = before.length) ∧
      C.offset os c (C.elements c).length = written.length ∧
      ∀ i j, i ≤ j → j ≤ (C.elements c).length → ∀ is more, is.content = written ++ more → is.failbit = false →
        ∃ range left, C.deserializeRange (C.offset os c i) (C.offset os c j) is = .ok range left ∧
          C.elements range = ((C.elements c).take j).drop i ∧ left.tellg = C.offset os c j := by
  intro written withCalls
  have bytes := written_eq (C := C) c os tryBuildIndex captured
  refine ⟨?_, serializeIndexed_recorded .., calls_recorded .., fun front x back split => ?_, ?_,
    fun i j ordered inside is more content working => ?_⟩
  · rw [C.serialize, ← List.append_assoc]
    exact bytes
  · have around : (C.elements c).flatMap C.element.serialize =
        front.flatMap C.element.serialize ++ (C.element.serialize x ++ back.flatMap C.element.serialize) := by
      rw [split, List.flatMap_append, List.flatMap_cons]
    refine ⟨_, back.flatMap C.element.serialize, ?_, offset_split split⟩
    rw [show written = _ from bytes, around]
    simp only [List.append_assoc]
  · rw [show written = _ from bytes]
    exact offset_split (List.append_nil _).symm
  · have parts : (C.elements c).take j = (C.elements c).take i ++ ((C.elements c).take j).drop i := by
      rw [← List.take_append_drop i ((C.elements c).take j), List.take_take, Nat.min_eq_left ordered,
        List.drop_left' (by rw [List.length_take]; omega)]
    have split : C.elements c = (C.elements c).take i ++ ((C.elements c).take j).drop i ++ (C.elements c).drop j := by
      rw [← parts, List.take_append_drop]
    have first : ((C.elements c).take i).length = i := by rw [List.length_take]; omega
    have last : ((C.elements c).take i ++ ((C.elements c).take j).drop i).length = j := by
      rw [← parts, List.length_take]; omega
    have decoded := @deserializeRange_between _ _ C _ os _ _ _ split
      (fun x member => fits x (List.mem_of_mem_take (List.mem_of_mem_drop member))) more is working
      (by rw [content, show written = _ from bytes])
    rwa [first, last] at decoded

/-- Two entries behind one byte, with a builder that indexes every element. -/
theorem indexed_ranges_two :
    let xs : List (Key × Value) := [(⟨.empty⟩, .tombstone), (⟨⟨[107], by decide⟩⟩, .tombstone)]
    let written := (serializeIndexed entryType (fun n _ _ _ _ => (true, n + 1)) xs [7] 0).1
    ∃ range left, (vector entryType).deserializeRange ((vector entryType).offset [7] xs 1)
        ((vector entryType).offset [7] xs 2) (.between [] written) = .ok range left ∧
      range = xs.drop 1 ∧ (vector entryType).offset [7] xs 1 = 29 := by
  intro xs written
  have all := indexed_ranges (vector entryType) xs (fun _ _ => ⟨True.intro, True.intro⟩) [7]
    (fun (n : Nat) _ _ _ _ => (true, n + 1)) 0
  obtain ⟨_, _, _, _, _, ranges⟩ := all
  obtain ⟨range, left, decoded, same, _⟩ := ranges 1 2 (by decide) (by decide) (.between [] written) [] (by simp; rfl) rfl
  exact ⟨range, left, decoded, same, by decide⟩

end SerializableContainer
end ProjectDb
