import ProjectDb.Foundation.Language
import ProjectDb.TransactionLogGrammar

namespace ProjectDb

/-- A decoder of a language that throws `DbException` where no word stands. -/
abbrev Decodes {α : Type} (d : Decoder Exn α) (language : List Byte → α → Prop) : Prop :=
  Recognizes (fun e => e.isDbException = true) d language

/-- The words of the format, with the values that they stand for. A map may come
with its entries in any order, and more than once. -/
def Serializable.Encodes : {α : Type} → Serializable α → List Byte → α → Prop
  | α, trivial, word, a => word.length = Trivial.width α ∧ a = Trivial.ofBytes word
  | _, key, word, k => word = serializeString k.key
  | _, value, word, v => word = Trivial.toBytes v.type ++ serializeString v.value
  | _, metaData, word, m => word = Trivial.toBytes m.msSinceEpoch
  | _, pair first second, word, p => ∃ x y, word = x ++ y ∧ first.Encodes x p.1 ∧ second.Encodes y p.2
  | _, string, word, s => word = serializeString s
  | _, vector element, word, xs => xs.length < 2 ^ 64 ∧ ∃ words, word = serializeSize xs.length ++ words.flatten ∧
      List.Forall₂ element.Encodes words xs
  | _, map _ first second, word, m => ∃ es : List (_ × _), es.length < 2 ^ 64 ∧ m = SortedMap.empty.ofEntries es ∧
      ∃ words, word = serializeSize es.length ++ words.flatten ∧
        List.Forall₂ (fun word e => ∃ x y, word = x ++ y ∧ first.Encodes x e.1 ∧ second.Encodes y e.2) words es

theorem deserializeTrivial_decodes (α : Type) [Trivial α] :
    Decodes (deserializeTrivial α) fun word a => word.length = Trivial.width α ∧ a = Trivial.ofBytes word where
  reads := by
    rintro word _ ⟨length, rfl⟩
    refine ⟨fun before rest => ?_, fun before part isPrefix proper => ?_⟩
    · have run := IStream.read_whole before word rest
      rw [length] at run
      simp only [deserializeTrivial, run]
    · have short : part.length < Trivial.width α := by
        rw [← length]
        exact lt_of_le_of_ne isPrefix.length_le fun same => proper (isPrefix.eq_of_length same)
      refine ⟨.dbException "Invalid stream encountered!", ⟨before ++ part, before.length + part.length, true, true⟩,
        ?_, rfl, rfl⟩
      simp only [deserializeTrivial, IStream.read_torn before part short]
  total := by
    intro before content
    by_cases enough : Trivial.width α ≤ content.length
    · refine Or.inl ⟨content.take (Trivial.width α), content.drop (Trivial.width α), ⟨_, ?_, rfl⟩,
        (List.take_append_drop ..).symm⟩
      rw [List.length_take]
      omega
    · refine Or.inr ⟨.dbException "Invalid stream encountered!",
        ⟨before ++ content, before.length + content.length, true, true⟩, ?_, rfl, rfl⟩
      simp only [deserializeTrivial, IStream.read_torn before content (not_le.mp enough)]

/-- Any eight bytes are a size. -/
theorem deserializeSize_decodes : Decodes (deserializeTrivial UInt64) fun word size => word = Trivial.toBytes size := by
  refine (deserializeTrivial_decodes UInt64).congr fun word size => ⟨?_, ?_⟩
  · rintro rfl
    exact ⟨Trivial.toBytes_length size, (Trivial.ofBytes_toBytes size).symm⟩
  · rintro ⟨length, rfl⟩
    obtain ⟨size, rfl⟩ := uint64_onto word length
    rw [Trivial.ofBytes_toBytes]

theorem serializeSize_toNat (size : UInt64) : serializeSize size.toNat = Trivial.toBytes size := by
  rw [serializeSize, UInt64.ofNat_toNat]

/-- A container: a size, and as many elements. -/
theorem Decodes.container {α β : Type} {d : Decoder Exn α} {language : List Byte → α → Prop} (each : Decodes d language)
    (f : List α → β) :
    Decodes (do
      let size ← deserializeTrivial UInt64
      let elements ← readElements d size.toNat
      pure (f elements.toList)) fun word b => ∃ xs, xs.length < 2 ^ 64 ∧ b = f xs ∧
        ∃ words, word = serializeSize xs.length ++ words.flatten ∧ List.Forall₂ language words xs := by
  refine (deserializeSize_decodes.bind fun size => (each.elements size.toNat).map fun xs => f xs.toList).congr
    fun word b => ⟨?_, ?_⟩
  · rintro ⟨xs, small, rfl, words, rfl, known⟩
    have size : (UInt64.ofNat xs.length).toNat = xs.length := UInt64.toNat_ofNat_of_lt' small
    exact ⟨_, words.flatten, UInt64.ofNat xs.length, rfl, rfl, ⟨xs, size.symm⟩, ⟨words, rfl, known⟩, rfl⟩
  · rintro ⟨_, _, size, rfl, rfl, ⟨xs, length⟩, ⟨words, rfl, known⟩, rfl⟩
    refine ⟨xs, by rw [length]; exact size.toNat_lt, rfl, words, ?_, known⟩
    rw [length, serializeSize_toNat]

theorem deserializeString_decodes : Decodes deserializeString fun word s => word = serializeString s where
  reads := by
    rintro _ s rfl
    exact deserializeString_reads s
  total := deserializeString_accepts

/-- The deserializer of every type decodes exactly the words of the format. -/
theorem Serializable.decodes {α : Type} (type : Serializable α) : Decodes type.deserialize type.Encodes := by
  induction type with
  | @trivial α _ => exact deserializeTrivial_decodes α
  | key =>
    refine ⟨?_, key_accepts⟩
    rintro _ k rfl
    exact Serializable.key.reads (a := k) True.intro
  | value =>
    refine ⟨?_, value_accepts⟩
    rintro _ v rfl
    exact Serializable.value.reads (a := v) True.intro
  | metaData =>
    refine ⟨?_, fun before content => ?_⟩
    · rintro _ m rfl
      exact Serializable.metaData.reads (a := m) True.intro
    · rcases (deserializeTrivial_accepts uint64_onto).andThen
        (fun time => do checkDeserialized; pure (SSTableMetaData.mk time)) before content with
        ⟨_, rest, ⟨time, rfl⟩, split⟩ | torn
      · exact Or.inl ⟨_, rest, ⟨⟨time⟩, rfl⟩, split⟩
      · exact Or.inr torn
  | pair first second ihFirst ihSecond =>
    refine (ihFirst.bind fun a => ihSecond.map (Prod.mk a)).congr fun word p => ⟨?_, ?_⟩
    · rintro ⟨x, y, rfl, here, later⟩
      exact ⟨x, y, p.1, rfl, here, p.2, later, rfl⟩
    · rintro ⟨x, y, a, rfl, here, b, later, rfl⟩
      exact ⟨x, y, rfl, here, later⟩
  | string => exact deserializeString_decodes
  | vector element ih =>
    refine (Decodes.container ih id).congr fun word xs => ⟨?_, ?_⟩
    · rintro ⟨small, words, split, known⟩
      exact ⟨xs, small, rfl, words, split, known⟩
    · rintro ⟨_, small, rfl, words, split, known⟩
      exact ⟨small, words, split, known⟩
  | map lt first second ihFirst ihSecond =>
    refine Decodes.container ((ihFirst.bind fun a => ihSecond.map (Prod.mk a)).congr fun word e => ⟨?_, ?_⟩)
      SortedMap.empty.ofEntries
    · rintro ⟨x, y, rfl, here, later⟩
      exact ⟨x, y, e.1, rfl, here, e.2, later, rfl⟩
    · rintro ⟨x, y, a, rfl, here, b, later, rfl⟩
      exact ⟨x, y, rfl, here, later⟩

section WellFormed

theorem forall₂_flatMap {α : Type} (language : List Byte → α → Prop) {encode : α → List Byte} {xs : List α}
    (each : ∀ x ∈ xs, language (encode x) x) :
    ∃ words, xs.flatMap encode = words.flatten ∧ List.Forall₂ language words xs :=
  ⟨xs.map encode, List.flatMap_def, List.forall₂_map_left_iff.mpr (List.forall₂_same.mpr each)⟩

/-- What the serializer writes is a word of the format. -/
theorem Serializable.encodes {α : Type} (type : Serializable α) {a : α} (fits : type.Fits a) :
    type.Encodes (type.serialize a) a := by
  induction type with
  | trivial => exact ⟨Trivial.toBytes_length a, (Trivial.ofBytes_toBytes a).symm⟩
  | key => rfl
  | value => rfl
  | metaData => rfl
  | pair first second ihFirst ihSecond => exact ⟨_, _, rfl, ihFirst fits.1, ihSecond fits.2⟩
  | string => rfl
  | vector element ih =>
    obtain ⟨words, split, known⟩ := forall₂_flatMap element.Encodes fun x member => ih (fits.2 x member)
    exact ⟨fits.1, words, congrArg _ split, known⟩
  | map lt first second ihFirst ihSecond =>
    obtain ⟨words, split, known⟩ := forall₂_flatMap
      (fun word e => ∃ x y, word = x ++ y ∧ first.Encodes x e.1 ∧ second.Encodes y e.2)
      fun e member =>
        ⟨first.serialize e.1, second.serialize e.2, rfl, ihFirst (fits.2 e member).1, ihSecond (fits.2 e member).2⟩
    exact ⟨a.entries, fits.1, a.ofEntries_entries.symm, words, congrArg _ split, known⟩

/-- What holds of every word holds of all elements, and these take no more bytes
than the words that they come from. -/
theorem forall₂_words {α : Type} {language : List Byte → α → Prop} {P : α → Prop} (weight : α → Nat)
    {words : List (List Byte)} {xs : List α} (known : List.Forall₂ language words xs)
    (each : ∀ word x, language word x → P x ∧ weight x ≤ word.length) :
    (∀ x ∈ xs, P x) ∧ (xs.map weight).sum ≤ words.flatten.length := by
  induction known with
  | nil => exact ⟨by simp, le_rfl⟩
  | @cons word x words xs here known ih =>
    obtain ⟨first, short⟩ := each word x here
    rw [List.map_cons, List.sum_cons, List.flatten_cons, List.length_append]
    refine ⟨fun y member => ?_, Nat.add_le_add short ih.2⟩
    rcases List.mem_cons.mp member with rfl | member
    · exact first
    · exact ih.1 y member

/-- What a word stands for can be written again, and takes no more bytes than the word. -/
theorem Serializable.Encodes.wellFormed {α : Type} {type : Serializable α} {word : List Byte} {a : α}
    (known : type.Encodes word a) : type.Fits a ∧ (type.serialize a).length ≤ word.length := by
  induction type generalizing word with
  | trivial => exact ⟨True.intro, ((Trivial.toBytes_length a).trans known.1.symm).le⟩
  | key => exact ⟨True.intro, (congrArg List.length known).ge⟩
  | value => exact ⟨True.intro, (congrArg List.length known).ge⟩
  | metaData => exact ⟨True.intro, (congrArg List.length known).ge⟩
  | pair first second ihFirst ihSecond =>
    obtain ⟨x, y, rfl, here, later⟩ := known
    obtain ⟨fitsFirst, shortFirst⟩ := ihFirst here
    obtain ⟨fitsSecond, shortSecond⟩ := ihSecond later
    refine ⟨⟨fitsFirst, fitsSecond⟩, ?_⟩
    rw [Serializable.serialize, List.length_append, List.length_append]
    exact Nat.add_le_add shortFirst shortSecond
  | string => exact ⟨True.intro, (congrArg List.length known).ge⟩
  | vector element ih =>
    obtain ⟨small, words, rfl, known⟩ := known
    obtain ⟨fits, short⟩ := forall₂_words (P := element.Fits) (fun x => (element.serialize x).length) known
      fun word x here => ih here
    refine ⟨⟨small, fits⟩, ?_⟩
    rw [Serializable.serialize, List.length_append, List.length_append, List.length_flatMap]
    exact Nat.add_le_add_left short _
  | map lt first second ihFirst ihSecond =>
    obtain ⟨es, small, rfl, words, rfl, known⟩ := known
    obtain ⟨fits, short⟩ := forall₂_words (P := fun e => first.Fits e.1 ∧ second.Fits e.2)
      (fun e => (first.serialize e.1 ++ second.serialize e.2).length) known (by
        rintro _ e ⟨x, y, rfl, here, later⟩
        obtain ⟨fitsFirst, shortFirst⟩ := ihFirst here
        obtain ⟨fitsSecond, shortSecond⟩ := ihSecond later
        rw [List.length_append, List.length_append]
        exact ⟨⟨fitsFirst, fitsSecond⟩, Nat.add_le_add shortFirst shortSecond⟩)
    have fewer : ((SortedMap.empty : SortedMap _ _ lt).ofEntries es).size ≤ es.length := SortedMap.size_ofEntries_le es
    refine ⟨⟨fewer.trans_lt small, fun e member => ?_⟩, ?_⟩
    · exact fits e ((SortedMap.mem_ofEntries member).resolve_left List.not_mem_nil)
    · have lighter := SortedMap.sum_ofEntries_le (fun e => (first.serialize e.1 ++ second.serialize e.2).length)
        (SortedMap.empty : SortedMap _ _ lt) es
      rw [Serializable.serialize, List.length_append, List.length_append, List.length_flatMap, length_serializeSize,
        length_serializeSize]
      exact Nat.add_le_add_left (lighter.trans (by simpa using short)) _

end WellFormed

/-- On any bytes the deserializer of a type returns the value of the word in
front of them, with the stream right behind it, or throws at their end where no
word stands; which word it is, and what it stands for, are unambiguous. What
the serializer writes are words, and what a word stands for can be written
again, in no more bytes. -/
theorem Serializable.deserialize_grammar {α : Type} (type : Serializable α) :
    (∀ content, (∃ word rest a, content = word ++ rest ∧ type.Encodes word a ∧
          type.deserialize (.between [] content) = .ok a (.between word rest)) ∨
        (∀ word rest a, content = word ++ rest → ¬ type.Encodes word a) ∧
          ∃ msg is, type.deserialize (.between [] content) = .error (.dbException msg) is ∧ is.eofbit = true) ∧
      (∀ word rest other more a b, type.Encodes word a → type.Encodes other b → word ++ rest = other ++ more →
        word = other ∧ a = b) ∧
      (∀ a, type.Fits a → type.Encodes (type.serialize a) a) ∧
      ∀ word a, type.Encodes word a → type.Fits a ∧ (type.serialize a).length ≤ word.length := by
  refine ⟨fun content => ?_, fun _ _ _ _ _ _ known also same => type.decodes.unambiguous known also same,
    fun _ fits => type.encodes fits, fun _ _ known => known.wellFormed⟩
  rcases type.decodes.decides [] content with ⟨word, rest, a, split, known, run⟩ | ⟨none, e, is, run, bad, eof⟩
  · exact Or.inl ⟨word, rest, a, split, known, run⟩
  · refine Or.inr ⟨none, ?_⟩
    cases e with
    | dbException msg => exact ⟨msg, is, run, eof⟩
    | _ => simp [Exn.isDbException] at bad

/-- Words of a map with the same entry twice, and with two entries in the wrong order. -/
example :
    let type : Serializable (SortedMap Byte Byte (· < ·)) := .map (· < ·) .trivial .trivial
    (∃ a, type.Encodes (serializeSize 2 ++ [5, 1, 5, 2]) a ∧ a.entries = [(5, 1)]) ∧
      ∃ a, type.Encodes (serializeSize 2 ++ [5, 1, 3, 2]) a ∧ a.entries = [(3, 2), (5, 1)] := by
  have word (a b : Byte) : ∃ x y : List Byte, [a, b] = x ++ y ∧ (x.length = 1 ∧ a = Trivial.ofBytes x) ∧
      y.length = 1 ∧ b = Trivial.ofBytes y := ⟨[a], [b], rfl, ⟨rfl, rfl⟩, rfl, rfl⟩
  exact ⟨⟨_, ⟨[(5, 1), (5, 2)], by decide, rfl, [[5, 1], [5, 2]], rfl, .cons (word 5 1) (.cons (word 5 2) .nil)⟩, by decide⟩,
    _, ⟨[(5, 1), (3, 2)], by decide, rfl, [[5, 1], [3, 2]], rfl, .cons (word 5 1) (.cons (word 3 2) .nil)⟩, by decide⟩

end ProjectDb
