import ProjectDb.Foundation.ByteStream

/-- Words of one language, each followed by a word of a language that its value chooses. -/
def List.Follows {ι α β : Type} (first : List ι → α → Prop) (next : α → List ι → β → Prop) (word : List ι) (b : β) : Prop :=
  ∃ x y a, word = x ++ y ∧ first x a ∧ next a y b

/-- A decoder of a language of words with their values: it turns each of its
words, wherever it stands in a stream, into the value of the word, and on a
stream that starts with no word it runs into the end and throws one of the
`torn` exceptions. -/
structure Recognizes {ε α : Type} (torn : ε → Prop) (d : Decoder ε α) (language : List Byte → α → Prop) : Prop where
  reads : ∀ word a, language word a → Reads torn d word a
  total : Exhaustive torn d fun word => ∃ a, language word a

namespace Recognizes
variable {ε α β : Type} {torn : ε → Prop} {d : Decoder ε α} {language : List Byte → α → Prop}

theorem pure (a : α) : Recognizes torn (Pure.pure a : Decoder ε α) fun word b => word = [] ∧ b = a where
  reads := by
    rintro _ _ ⟨rfl, rfl⟩
    exact .pure _
  total := .nothing ⟨a, rfl, rfl⟩

theorem congr {same : List Byte → α → Prop} (recognizes : Recognizes torn d language)
    (iff : ∀ word a, same word a ↔ language word a) : Recognizes torn d same := by
  have equal : same = language := funext fun word => funext fun a => propext (iff word a)
  exact equal ▸ recognizes

theorem bind {f : α → Decoder ε β} {next : α → List Byte → β → Prop} (first : Recognizes torn d language)
    (second : ∀ a, Recognizes torn (f a) (next a)) : Recognizes torn (d >>= f) (List.Follows language next) where
  reads := by
    rintro _ b ⟨x, y, a, rfl, here, later⟩
    exact (first.reads x a here).bind ((second a).reads y b later)
  total := by
    intro before content
    rcases first.total before content with ⟨x, left, ⟨a, here⟩, rfl⟩ | ⟨e, is, run, bad, eof⟩
    · have run := (first.reads x a here).whole before left
      rcases (second a).total (before ++ x) left with ⟨y, rest, ⟨b, later⟩, rfl⟩ | ⟨e, is, fails, bad, eof⟩
      · exact Or.inl ⟨x ++ y, rest, ⟨b, x, y, a, rfl, here, later⟩, (List.append_assoc ..).symm⟩
      · exact Or.inr ⟨e, is, by rw [EStateM.bind_ok run]; exact fails, bad, eof⟩
    · exact Or.inr ⟨e, is, EStateM.bind_error run, bad, eof⟩

theorem map (recognizes : Recognizes torn d language) (f : α → β) :
    Recognizes torn (d >>= fun a => Pure.pure (f a)) fun word b => ∃ a, language word a ∧ b = f a := by
  refine (recognizes.bind fun a => pure (f a)).congr fun word b => ⟨?_, ?_⟩
  · rintro ⟨a, known, rfl⟩
    exact ⟨word, [], a, (List.append_nil _).symm, known, rfl, rfl⟩
  · rintro ⟨x, _, a, rfl, known, rfl, rfl⟩
    exact ⟨a, by rwa [List.append_nil], rfl⟩

/-- As many words as there are elements. -/
theorem elements (recognizes : Recognizes torn d language) (n : Nat) :
    Recognizes torn (readElements d n) fun word xs =>
      ∃ words, word = words.flatten ∧ List.Forall₂ language words xs.toList := by
  induction n with
  | zero =>
    refine (pure List.Vector.nil).congr fun word xs => ?_
    obtain rfl : xs = List.Vector.nil := List.Vector.eq_nil xs
    constructor
    · rintro ⟨words, rfl, each⟩
      rw [List.forall₂_nil_right_iff.mp each]
      exact ⟨rfl, rfl⟩
    · rintro ⟨rfl, _⟩
      exact ⟨[], rfl, .nil⟩
  | succ n ih =>
    refine (recognizes.bind fun x => ih.map (x ::ᵥ ·)).congr fun word xs => ⟨?_, ?_⟩
    · rintro ⟨words, rfl, each⟩
      rw [← List.Vector.cons_head_tail xs, List.Vector.toList_cons] at each
      obtain ⟨first, rest, here, later, rfl⟩ := List.forall₂_cons_right_iff.mp each
      exact ⟨first, rest.flatten, xs.head, rfl, here, xs.tail, ⟨rest, rfl, later⟩, (List.Vector.cons_head_tail xs).symm⟩
    · rintro ⟨first, _, x, rfl, here, tail, ⟨rest, rfl, later⟩, rfl⟩
      exact ⟨first :: rest, rfl, by rw [List.Vector.toList_cons]; exact .cons here later⟩

/-- On any stream the decoder returns the value of the word in front, or throws
where there is none. -/
theorem decides (recognizes : Recognizes torn d language) (before content : List Byte) :
    (∃ word rest a, content = word ++ rest ∧ language word a ∧
        d (.between before content) = .ok a (.between (before ++ word) rest)) ∨
      (∀ word rest a, content = word ++ rest → ¬ language word a) ∧
        ∃ e is, d (.between before content) = .error e is ∧ torn e ∧ is.eofbit = true := by
  rcases recognizes.total before content with ⟨word, rest, ⟨a, known⟩, rfl⟩ | ⟨e, is, run, bad, eof⟩
  · exact Or.inl ⟨word, rest, a, rfl, known, (recognizes.reads word a known).whole before rest⟩
  · refine Or.inr ⟨?_, e, is, run, bad, eof⟩
    rintro word rest a rfl known
    rw [(recognizes.reads word a known).whole before rest] at run
    contradiction

/-- No word starts another one, and a word has one value. -/
theorem unambiguous (recognizes : Recognizes torn d language) {word other rest more : List Byte} {a b : α}
    (known : language word a) (also : language other b) (same : word ++ rest = other ++ more) :
    word = other ∧ a = b := by
  have first := (recognizes.reads word a known).whole [] rest
  have second := (recognizes.reads other b also).whole [] more
  rw [same, second] at first
  obtain ⟨value, stream⟩ := EStateM.Result.ok.inj first
  have position := congrArg IStream.tellg stream
  rw [IStream.tellg_between, IStream.tellg_between, List.nil_append, List.nil_append] at position
  exact ⟨(List.append_inj same (by omega)).1, value.symm⟩

end Recognizes
