import ProjectDb.Foundation.OStream

namespace OStream

/-- A working stream on which nothing fails any more. -/
structure Steady (os : OStream) : Prop where
  working : os.failed = false
  moves : ∀ fate ∈ os.fates, ∃ reached, fate = .move reached

theorem Steady.fate {os : OStream} (steady : Steady os) : ∃ reached, os.fate = .move reached := by
  unfold OStream.fate
  cases fates : os.fates with
  | nil => exact ⟨0, rfl⟩
  | cons fate rest => exact steady.moves fate (fates ▸ List.mem_cons_self)

/-- The state of a stream after a move that has failed: `sent` was in the file and `held`
in the buffer before it; so much of `held` is in the file now, and so much in the buffer. -/
structure Interrupted (sent held : List Byte) (os : OStream) : Prop where
  file : ∃ reached, os.file = sent ++ held.take reached
  buffer : ∃ kept, os.buffer = held.take kept

/-- One state of a stream comes from another in which at most `bytes` are written to it:
what has got to the file stays there, a working stream has taken them all, and a
failed one has been interrupted somewhere in them. -/
structure Adds (bytes : List Byte) (os after : OStream) : Prop where
  grows : os.file <+: after.file
  whole : after.failed = false → after.written = os.written ++ bytes
  broken : after.failed = true → ∃ sent held, (os.file <+: sent ∧ sent ++ held <+: os.written ++ bytes) ∧
    Interrupted sent held after
  steady : Steady os → Steady after

/-- What is left in the file of a stream to which `bytes` were to be written: a front of
them and, if a move has failed, behind it the first bytes of the buffer from their start. -/
def Leaves (bytes content : List Byte) : Prop :=
  ∃ sent held reached again, sent ++ held <+: bytes ∧ content = sent ++ held.take reached ++ held.take again

/-- Begun on a working stream, the program takes it through the writes of `bytes`
and then does `last`, or throws and leaves a failed stream. -/
def Appends {ε α : Type} (p : EStateM ε OStream α) (bytes : List Byte) (last : OStream → OStream) : Prop :=
  ∀ os, os.failed = false →
    (∃ a there, p os = .ok a (last there) ∧ Adds bytes os there ∧ there.failed = false) ∨
    ∃ e after, p os = .error e after ∧ Adds bytes os after ∧ after.failed = true

section Moves
variable {os after there : OStream} {bytes more : List Byte}

theorem Interrupted.unmoved (os : OStream) : Interrupted os.file os.buffer os :=
  ⟨⟨0, by rw [List.take_zero, List.append_nil]⟩, ⟨os.buffer.length, by rw [List.take_length]⟩⟩

theorem Adds.refl (os : OStream) : Adds [] os os := by
  have same : os.written = os.written ++ [] := (List.append_nil _).symm
  exact ⟨List.prefix_refl _, fun _ => same, fun _ => ⟨os.file, os.buffer, ⟨List.prefix_refl _, same ▸ List.prefix_refl _⟩,
    .unmoved os⟩, id⟩

theorem Adds.trans (first : Adds bytes os there) (working : there.failed = false) (second : Adds more there after) :
    Adds (bytes ++ more) os after := by
  have middle := first.whole working
  refine ⟨first.grows.trans second.grows, fun still => ?_, fun failed => ?_, second.steady ∘ first.steady⟩
  · rw [← List.append_assoc, ← middle]
    exact second.whole still
  · obtain ⟨sent, held, ⟨sends, within⟩, interrupted⟩ := second.broken failed
    rw [middle, List.append_assoc] at within
    exact ⟨sent, held, ⟨first.grows.trans sends, within⟩, interrupted⟩

theorem Adds.weaken (adds : Adds bytes os after) (failed : after.failed = true) (more : List Byte) :
    Adds (bytes ++ more) os after := by
  refine ⟨adds.grows, fun working => ?_, fun _ => ?_, adds.steady⟩
  · rw [failed] at working
    contradiction
  · obtain ⟨sent, held, ⟨sends, within⟩, interrupted⟩ := adds.broken failed
    rw [← List.append_assoc]
    exact ⟨sent, held, ⟨sends, within.trans (List.prefix_append _ _)⟩, interrupted⟩

theorem moved_adds (os : OStream) (reached : Nat) : Adds [] os (os.moved reached) := by
  have same : (os.moved reached).written = os.written ++ [] := by
    rw [moved, written, written, List.append_assoc, List.take_append_drop, List.append_nil]
  refine ⟨List.prefix_append _ _, fun _ => same, fun _ => ?_, fun steady => ?_⟩
  · refine ⟨(os.moved reached).file, (os.moved reached).buffer, ⟨List.prefix_append _ _, ?_⟩, .unmoved _⟩
    rw [← same]
    exact List.prefix_refl _
  · exact ⟨steady.working, fun fate member => steady.moves fate (List.mem_of_mem_tail member)⟩

theorem broken_adds {reached kept : Nat} (fails : os.fate = .fail reached kept) :
    Adds [] os (os.broken reached kept) := by
  refine ⟨List.prefix_append _ _, fun working => absurd working (by simp [OStream.broken]), fun _ => ?_, fun steady => ?_⟩
  · refine ⟨os.file, os.buffer, ⟨List.prefix_refl _, ?_⟩, ⟨reached, rfl⟩, ⟨kept, rfl⟩⟩
    rw [List.append_nil]
    exact List.prefix_refl _
  · obtain ⟨n, moves⟩ := steady.fate
    rw [fails] at moves
    cases moves

theorem transfer_adds (os : OStream) : Adds [] os os.transfer := by
  unfold transfer
  cases fate : os.fate with
  | move reached => exact moved_adds os reached
  | fail reached kept => exact broken_adds fate

theorem sync_adds (os : OStream) : Adds [] os os.sync := by
  unfold sync
  cases fate : os.fate with
  | move reached => exact moved_adds os os.buffer.length
  | fail reached kept => exact broken_adds fate

theorem flush_adds (os : OStream) : Adds [] os os.flush := by
  unfold flush
  split_ifs
  · exact Adds.refl os
  · exact sync_adds os

theorem askPosition_adds (os : OStream) : Adds [] os os.askPosition := by
  unfold askPosition
  split_ifs
  · exact Adds.refl os
  · exact transfer_adds os

/-- A flush that does not fail leaves nothing in the buffer. -/
theorem flush_empties (working : os.flush.failed = false) : os.flush.buffer = [] := by
  unfold flush at working ⊢
  split_ifs at working ⊢ with failed
  · rw [failed] at working
    contradiction
  · unfold sync at working ⊢
    cases fated : os.fate with
    | move reached => simp [moved]
    | fail reached kept => simp [fated, broken] at working

/-- What is done on a failed stream changes nothing. -/
theorem Adds.silently {op : OStream → OStream} (adds : Adds bytes os there) (more : Adds [] there (op there))
    (idle : there.failed = true → op there = there) : Adds bytes os (op there) := by
  by_cases failed : there.failed = true
  · rw [idle failed]
    exact adds
  · have all := adds.trans (by simpa using failed) more
    rwa [List.append_nil] at all

theorem Adds.flush (adds : Adds bytes os there) : Adds bytes os there.flush :=
  adds.silently (flush_adds there) fun failed => by rw [OStream.flush, if_pos failed]

theorem Adds.askPosition (adds : Adds bytes os there) : Adds bytes os there.askPosition :=
  adds.silently (askPosition_adds there) fun failed => by rw [OStream.askPosition, if_pos failed]

/-- The close appends a front of what was held once more. -/
theorem Interrupted.close {sent held : List Byte} (interrupted : Interrupted sent held os) :
    ∃ again, os.close.file = os.file ++ held.take again := by
  obtain ⟨kept, buffer⟩ := interrupted.buffer
  refine ⟨min (reach os.buffer.length os.fates) kept, ?_⟩
  rw [OStream.close, sync_file, ← List.take_take, ← buffer]

/-- What a stream that has been flushed leaves when it is closed. -/
theorem Adds.leaves (adds : Adds bytes os after) (empty : os.written = [])
    (flushed : after.failed = false → after.buffer = []) : Leaves bytes after.close.file ∧ (after.failed = false → after.close.file = bytes) := by
  by_cases failed : after.failed = true
  · obtain ⟨sent, held, ⟨_, within⟩, interrupted⟩ := adds.broken failed
    obtain ⟨reached, file⟩ := interrupted.file
    obtain ⟨again, close⟩ := interrupted.close
    rw [empty, List.nil_append] at within
    refine ⟨⟨sent, held, reached, again, within, by rw [close, file]⟩, fun working => ?_⟩
    rw [failed] at working
    contradiction
  · have working : after.failed = false := by simpa using failed
    have whole := adds.whole working
    rw [written, flushed working, List.append_nil, empty, List.nil_append] at whole
    have file : after.close.file = bytes := by rw [close_empty (flushed working), whole]
    exact ⟨⟨bytes, [], 0, 0, by rw [List.append_nil], by simp [file]⟩, fun _ => file⟩

end Moves

section Rules
variable {ε α β : Type} {bytes more : List Byte} {last : OStream → OStream}

theorem Appends.pure (a : α) : Appends (Pure.pure a : EStateM ε OStream α) [] id :=
  fun os working => Or.inl ⟨a, os, rfl, Adds.refl os, working⟩

theorem Appends.put (e : ε) (bytes : List Byte) : Appends (OStream.put e bytes) bytes id := by
  intro os working
  have write : os.write bytes = { os with buffer := os.buffer ++ bytes }.transfer := by
    rw [OStream.write, if_neg (by simp [working])]
  have adds : Adds bytes os (os.write bytes) := by
    obtain ⟨grows, whole, broken, steady⟩ := transfer_adds { os with buffer := os.buffer ++ bytes }
    rw [write]
    simp only [OStream.written, List.append_nil, ← List.append_assoc] at whole broken
    exact ⟨grows, whole, broken, fun before => steady ⟨before.working, before.moves⟩⟩
  by_cases failed : (os.write bytes).failed = true
  · exact Or.inr ⟨e, os.write bytes, by rw [OStream.put, if_pos failed], adds, failed⟩
  · exact Or.inl ⟨(), os.write bytes, by rw [OStream.put, if_neg failed]; rfl, adds, by simpa using failed⟩

theorem Appends.bind {p : EStateM ε OStream α} {f : α → EStateM ε OStream β} (first : Appends p bytes id)
    (second : ∀ a, Appends (f a) more last) : Appends (p >>= f) (bytes ++ more) last := by
  intro os working
  rcases first os working with ⟨a, there, run, adds, still⟩ | ⟨e, after, run, adds, failed⟩
  · rcases second a there still with ⟨b, further, rest, adds', still'⟩ | ⟨e, after, rest, adds', failed⟩
    · exact Or.inl ⟨b, further, by rw [EStateM.bind_ok run]; exact rest, adds.trans still adds', still'⟩
    · exact Or.inr ⟨e, after, by rw [EStateM.bind_ok run]; exact rest, adds.trans still adds', failed⟩
  · exact Or.inr ⟨e, after, EStateM.bind_error run, adds.weaken failed more, failed⟩

theorem Appends.forM {γ : Type} {f : γ → EStateM ε OStream PUnit} {encode : γ → List Byte}
    (each : ∀ x, Appends (f x) (encode x) id) (xs : List γ) : Appends (forM xs f) (xs.flatMap encode) id := by
  induction xs with
  | nil => exact .pure _
  | cons x xs ih =>
    rw [List.forM_cons]
    exact (each x).bind fun _ => ih

theorem Appends.silently (op : OStream → OStream) : Appends (OStream.silently op : EStateM ε OStream Unit) [] op :=
  fun os working => Or.inl ⟨(), os, rfl, Adds.refl os, working⟩

/-- Asking for the position is checked by the write that comes next. -/
theorem Appends.tellp {f : Int → EStateM ε OStream β} (next : ∀ pos, Appends (f pos) bytes last)
    (stuck : ∀ pos, Stuck (f pos)) : Appends (OStream.tellp >>= f) bytes last := by
  intro os _
  have asks := askPosition_adds os
  have run : (OStream.tellp >>= f) os = f os.askPosition.position os.askPosition :=
    EStateM.bind_ok (show OStream.tellp os = .ok _ _ from rfl)
  rw [run]
  by_cases failed : os.askPosition.failed = true
  · obtain ⟨e, thrown⟩ := stuck os.askPosition.position os.askPosition failed
    exact Or.inr ⟨e, _, thrown, asks.weaken failed bytes, failed⟩
  · have still : os.askPosition.failed = false := by simpa using failed
    rcases next os.askPosition.position os.askPosition still with
      ⟨b, there, done, adds, on⟩ | ⟨e, after, thrown, adds, broken⟩
    · exact Or.inl ⟨b, there, done, asks.trans still adds, on⟩
    · exact Or.inr ⟨e, after, thrown, asks.trans still adds, broken⟩

end Rules
end OStream
