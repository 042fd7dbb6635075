import ProjectDb.Foundation.ByteStream

/-- What becomes of the buffer of an output stream when an operation moves
bytes of it to the file: so many bytes get there, or so many get there and then
the move fails. The buffer does not know how many bytes have got there then: it
keeps its first bytes, also those that are in the file already. It keeps all when
a flush has failed, those before the new ones when a write has, or none. -/
inductive Fate
  | move (reached : Nat)
  | fail (reached kept : Nat)
  deriving DecidableEq, Repr

/-- An output stream on a file: what is in the file, what is still in the
buffer, the error state, and the fates of the operations to come. -/
structure OStream where
  file : List Byte
  buffer : List Byte
  failed : Bool
  fates : List Fate
  deriving DecidableEq

namespace OStream

/-- Where no fate is given, nothing moves and nothing fails. -/
def fate (os : OStream) : Fate := os.fates.headD (.move 0)

def moved (os : OStream) (reached : Nat) : OStream :=
  { os with
    file := os.file ++ os.buffer.take reached
    buffer := os.buffer.drop reached
    fates := os.fates.tail }

/-- A move that fails only sets the error state. -/
def broken (os : OStream) (reached kept : Nat) : OStream :=
  { os with
    file := os.file ++ os.buffer.take reached
    buffer := os.buffer.take kept
    failed := true
    fates := os.fates.tail }

/-- An operation that may move bytes. -/
def transfer (os : OStream) : OStream :=
  match os.fate with
  | .move reached => os.moved reached
  | .fail reached kept => os.broken reached kept

/-- An operation that moves all bytes, unless it fails. -/
def sync (os : OStream) : OStream :=
  match os.fate with
  | .move _ => os.moved os.buffer.length
  | .fail reached kept => os.broken reached kept

def write (os : OStream) (bytes : List Byte) : OStream :=
  if os.failed then os else { os with buffer := os.buffer ++ bytes }.transfer

def flush (os : OStream) : OStream := if os.failed then os else os.sync

/-- The end of the stream moves what is left in the buffer whatever the error state is. -/
def close (os : OStream) : OStream := os.sync

/-- All that has been written, in the file or still in the buffer. -/
def written (os : OStream) : List Byte := os.file ++ os.buffer

/-- Asking for the position may move bytes; it is -1 on a failed stream. -/
def askPosition (os : OStream) : OStream := if os.failed then os else os.transfer

def position (os : OStream) : Int := if os.failed then -1 else os.written.length

/-- `tellp`, which throws nothing. -/
def tellp {ε : Type} : EStateM ε OStream Int := fun os => .ok os.askPosition.position os.askPosition

/-- A write, and a check of the stream after it. -/
def put {ε : Type} (e : ε) (bytes : List Byte) : EStateM ε OStream Unit := fun os =>
  if (os.write bytes).failed then .error e (os.write bytes) else .ok () (os.write bytes)

/-- An operation that nobody checks. -/
def silently {ε : Type} (op : OStream → OStream) : EStateM ε OStream Unit := fun os => .ok () (op os)

/-- The number of bytes in the buffer, and the fates left, after operations that
add so many bytes to it each; there is none when one of the operations fails. -/
def pending (buffered : Nat) : List Nat → List Fate → Option (Nat × List Fate)
  | [], fates => some (buffered, fates)
  | size :: sizes, fates =>
    match fates.headD (.move 0) with
    | .move reached => pending (buffered + size - reached) sizes fates.tail
    | .fail .. => none

theorem pending_append (buffered : Nat) (sizes more : List Nat) (fates : List Fate) :
    pending buffered (sizes ++ more) fates =
      (pending buffered sizes fates).bind fun left => pending left.1 more left.2 := by
  induction sizes generalizing buffered fates with
  | nil => rfl
  | cons size sizes ih =>
    rw [List.cons_append, pending, pending]
    cases fates.headD (.move 0) with
    | move reached => exact ih _ fates.tail
    | fail reached kept => rfl

/-- Working on, the stream has come from `start` to this state: it has taken
`bytes`, and so many bytes are in its buffer. -/
structure Arrives (start : OStream) (bytes : List Byte) (left : Nat × List Fate) (os : OStream) : Prop where
  working : os.failed = false
  written : os.written = start.written ++ bytes
  buffered : os.buffer.length = left.1
  fates : os.fates = left.2

/-- What is in the buffer is the end of what has been written. -/
theorem Arrives.buffer {start os : OStream} {bytes : List Byte} {left : Nat × List Fate}
    (arrives : Arrives start bytes left os) : os.buffer = os.written.drop (os.written.length - left.1) := by
  rw [← arrives.buffered, OStream.written, List.length_append, Nat.add_sub_cancel, List.drop_left]

/-- On a working stream the program writes `bytes` by checked operations of
these sizes, throws when one of them fails, and otherwise ends with `last`,
which is not checked. -/
def Streams {ε α : Type} (p : EStateM ε OStream α) (bytes : List Byte) (sizes : List Nat)
    (last : OStream → OStream) : Prop :=
  ∀ os, os.failed = false → match pending os.buffer.length sizes os.fates with
    | some left => ∃ a there, Arrives os bytes left there ∧ p os = .ok a (last there)
    | none => ∃ e after, p os = .error e after

/-- On a failed stream the program throws, and leaves the stream alone. -/
def Stuck {ε α : Type} (p : EStateM ε OStream α) : Prop :=
  ∀ os, os.failed = true → ∃ e, p os = .error e os

section Rules
variable {ε α β : Type}

theorem transfer_moves {os : OStream} {added : List Byte} (working : os.failed = false) :
    match pending os.buffer.length [added.length] os.fates with
    | some left => Arrives os added left { os with buffer := os.buffer ++ added }.transfer
    | none => ({ os with buffer := os.buffer ++ added }.transfer).failed = true := by
  unfold pending transfer fate
  simp only
  cases os.fates.headD (.move 0) with
  | move reached =>
    refine ⟨working, ?_, ?_, rfl⟩
    · simp only [moved, OStream.written, List.append_assoc, List.take_append_drop]
    · simp only [moved, List.length_drop, List.length_append]
  | fail reached kept => rfl

theorem Streams.pure (a : α) : Streams (Pure.pure a : EStateM ε OStream α) [] [] id := by
  intro os working
  exact ⟨a, os, ⟨working, (List.append_nil _).symm, rfl, rfl⟩, rfl⟩

theorem Streams.put (e : ε) (bytes : List Byte) : Streams (put e bytes) bytes [bytes.length] id := by
  intro os working
  have moves := @transfer_moves os bytes working
  have write : os.write bytes = { os with buffer := os.buffer ++ bytes }.transfer := by
    rw [OStream.write, if_neg (by simp [working])]
  cases left : pending os.buffer.length [bytes.length] os.fates with
  | none =>
    rw [left] at moves
    exact ⟨e, _, by rw [OStream.put, write, if_pos moves]⟩
  | some left' =>
    rw [left] at moves
    exact ⟨(), _, moves, by rw [OStream.put, write, if_neg (by simp [moves.working])]; rfl⟩

theorem Stuck.put (e : ε) (bytes : List Byte) : Stuck (OStream.put e bytes) := by
  intro os broken
  have write : os.write bytes = os := by rw [OStream.write, if_pos broken]
  exact ⟨e, by rw [OStream.put, write, if_pos broken]⟩

theorem Streams.bind {p : EStateM ε OStream α} {f : α → EStateM ε OStream β} {bytes more : List Byte}
    {sizes later : List Nat} {last : OStream → OStream} (first : Streams p bytes sizes id)
    (second : ∀ a, Streams (f a) more later last) :
    Streams (p >>= f) (bytes ++ more) (sizes ++ later) last := by
  intro os working
  have here := first os working
  rw [pending_append]
  cases left : pending os.buffer.length sizes os.fates with
  | none =>
    rw [left] at here
    obtain ⟨e, after, run⟩ := here
    exact ⟨e, after, EStateM.bind_error run⟩
  | some middle =>
    rw [left] at here
    obtain ⟨a, there, arrives, run⟩ := here
    have next := second a there arrives.working
    rw [arrives.buffered, arrives.fates] at next
    rw [Option.bind_some]
    cases left : pending middle.1 later middle.2 with
    | none =>
      rw [left] at next
      obtain ⟨e, after, failed⟩ := next
      exact ⟨e, after, by rw [EStateM.bind_ok run]; exact failed⟩
    | some final =>
      rw [left] at next
      obtain ⟨b, further, arrives', done⟩ := next
      refine ⟨b, further, ⟨arrives'.working, ?_, arrives'.buffered, arrives'.fates⟩, ?_⟩
      · rw [arrives'.written, arrives.written, List.append_assoc]
      · rw [EStateM.bind_ok run]
        exact done

theorem Stuck.bind {p : EStateM ε OStream α} (first : Stuck p) (f : α → EStateM ε OStream β) : Stuck (p >>= f) := by
  intro os broken
  obtain ⟨e, run⟩ := first os broken
  exact ⟨e, EStateM.bind_error run⟩

/-- Asking for the position is checked by the write that comes next. -/
theorem Streams.tellp {f : Int → EStateM ε OStream β} {bytes : List Byte} {sizes : List Nat}
    {last : OStream → OStream} (next : ∀ pos, Streams (f pos) bytes sizes last) (stuck : ∀ pos, Stuck (f pos)) :
    Streams (OStream.tellp >>= f) bytes (0 :: sizes) last := by
  intro os working
  have moves := @transfer_moves os [] working
  simp only [List.append_nil, List.length_nil] at moves
  have asked : os.askPosition = os.transfer := by rw [askPosition, if_neg (by simp [working])]
  have run : (OStream.tellp >>= f) os = f os.transfer.position os.transfer := by
    rw [EStateM.bind_ok (show OStream.tellp os = .ok _ _ from rfl), asked]
  rw [run, ← List.singleton_append, pending_append]
  cases left : pending os.buffer.length [0] os.fates with
  | none =>
    rw [left] at moves
    obtain ⟨e, failed⟩ := stuck os.transfer.position os.transfer moves
    exact ⟨e, _, failed⟩
  | some middle =>
    rw [left] at moves
    have rest := next os.transfer.position os.transfer moves.working
    rw [moves.buffered, moves.fates] at rest
    rw [Option.bind_some]
    cases left : pending middle.1 sizes middle.2 with
    | none =>
      rw [left] at rest
      exact rest
    | some final =>
      rw [left] at rest
      obtain ⟨b, there, arrives, done⟩ := rest
      refine ⟨b, there, ⟨arrives.working, ?_, arrives.buffered, arrives.fates⟩, done⟩
      rw [arrives.written, moves.written, List.append_nil]

theorem Streams.silently (op : OStream → OStream) : Streams (OStream.silently op : EStateM ε OStream Unit) [] [] op := by
  intro os working
  exact ⟨(), os, ⟨working, (List.append_nil _).symm, rfl, rfl⟩, rfl⟩

end Rules

/-- So many bytes an operation that moves all of the buffer gets to the file. -/
def reach (buffered : Nat) (fates : List Fate) : Nat :=
  match fates.headD (.move 0) with
  | .move _ => buffered
  | .fail reached _ => reached

/-- An operation that moves all bytes gets them to the file, or fails after so many. -/
def moves (buffered : Nat) (fates : List Fate) : Bool := buffered ≤ reach buffered fates

/-- What is in the buffer gets to the file, and not a second time, when the stream is
asked for its position so many times, flushed and closed: after a failure the
close moves what the buffer has kept behind what has got to the file before. -/
def settles : (asks : Nat) → (buffer : List Byte) → List Fate → Bool
  | asks, buffer, fates =>
    match fates.headD (.move 0) with
    | .fail reached kept =>
      buffer.take reached ++ (buffer.take kept).take (reach (buffer.take kept).length fates.tail) = buffer
    | .move reached =>
      match asks with
      | 0 => true
      | asks + 1 => settles asks (buffer.drop reached) fates.tail

section Ending
variable {os : OStream}

theorem take_whole_iff {front buffer : List Byte} {reached : Nat} :
    front ++ buffer.take reached = front ++ buffer ↔ buffer.length ≤ reached := by
  rw [List.append_cancel_left_eq, List.take_eq_self_iff]

theorem sync_file (os : OStream) : os.sync.file = os.file ++ os.buffer.take (reach os.buffer.length os.fates) := by
  unfold sync reach fate
  cases os.fates.headD (.move 0) <;> rfl

theorem flush_iff (working : os.failed = false) :
    os.flush.file = os.written ↔ moves os.buffer.length os.fates = true := by
  rw [flush, if_neg (by simp [working]), sync_file, written, take_whole_iff, moves, decide_eq_true_eq]

theorem close_empty (empty : os.buffer = []) : os.close.file = os.file := by
  rw [close, sync_file, empty, List.take_nil, List.append_nil]

end Ending
end OStream
