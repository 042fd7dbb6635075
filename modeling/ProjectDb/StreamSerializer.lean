import ProjectDb.IndexedSerializer
import ProjectDb.Foundation.OStream

namespace ProjectDb

/-- Code that writes to an output stream, and may throw. -/
abbrev Encoder := EStateM Exn OStream

/-- `SerializationWrapper<T>` of a trivial type, with its check of the stream. -/
def serializeTrivialTo {α : Type} [Trivial α] (a : α) : Encoder Unit :=
  OStream.put (.dbException "Invalid stream encountered!") (Trivial.toBytes a)

def serializeSizeTo (size : Nat) : Encoder Unit := serializeTrivialTo (UInt64.ofNat size)

def serializeStringTo (s : StdString) : Encoder Unit := do
  serializeSizeTo s.bytes.length
  forM s.bytes serializeTrivialTo

/-- The sizes of the writes of a string: its length, and every character. -/
def stringPieces (s : StdString) : List Nat := 8 :: s.bytes.flatMap fun _ => [1]

section Encoding
open OStream

theorem serializeTrivialTo_streams {α : Type} [Trivial α] (a : α) :
    Streams (serializeTrivialTo a) (Trivial.toBytes a) [Trivial.width α] id := by
  rw [← Trivial.toBytes_length a]
  exact .put _ _

theorem forM_streams {α : Type} {f : α → Encoder Unit} {encode : α → List Byte} {sizes : α → List Nat} (xs : List α)
    (each : ∀ x, Streams (f x) (encode x) (sizes x) id) :
    Streams (forM xs f) (xs.flatMap encode) (xs.flatMap sizes) id := by
  induction xs with
  | nil => exact .pure ()
  | cons x xs ih =>
    rw [List.forM_cons]
    exact (each x).bind fun _ => ih

theorem serializeStringTo_streams (s : StdString) :
    Streams (serializeStringTo s) (serializeString s) (stringPieces s) id :=
  (serializeTrivialTo_streams (UInt64.ofNat s.bytes.length)).bind fun _ =>
    forM_streams s.bytes fun b : Byte => serializeTrivialTo_streams b

end Encoding
end ProjectDb
