import ProjectDb.TransactionLogGrammar
import ProjectDb.Writes

namespace ProjectDb
namespace MemTableQueue

/-- Reopen a log as the last one, and perform some operations on its MemTable. -/
def reopenAndWrite (fmt : LogFormat) (name : FileName) (ops : List Operation) : DbM Unit := do
  let _ ← pushFromTransactionLog fmt name true
  forM ops fun op => (write fmt op).run

/-- The MemTable that is written to has this log, with these contents. -/
structure LastLog (name : FileName) (contents : List Byte) (db : ProjectDbImpl) : Prop where
  last : ∃ memTable, db.memTableQueue.getLast? = some (memTable, ⟨name⟩)
  file : db.files.read name = some contents

section Writing
variable {fmt : LogFormat} {name : FileName} {contents : List Byte} {db : ProjectDbImpl}

theorem LastLog.write (log : LastLog name contents db) (fmt : LogFormat) (op : Operation) :
    ∃ after, (MemTableQueue.write fmt op).run db = .ok () after ∧ LastLog name (contents ++ fmt.record op) after := by
  obtain ⟨memTable, last⟩ := log.last
  have some : db.memTableQueue.isEmpty = false := by
    cases queue : db.memTableQueue with
    | nil => simp [queue] at last
    | cons _ _ => rfl
  have ready : prepare db = .ok () db := by
    simp [prepare, DbM.current, bind, EStateM.bind, some, pure, EStateM.pure]
  have append : append fmt op db = .ok () (db.appended op (memTable, ⟨name⟩) (contents ++ fmt.record op)) := by
    simp only [append, DbM.current, bind, EStateM.bind, last, DbM.file, appendFile, log.file, DbM.change,
      ProjectDbImpl.appended]
  refine ⟨db.appended op (memTable, ⟨name⟩) (contents ++ fmt.record op), ?_, ⟨memTable, last⟩, ?_⟩
  · rw [MemTableQueue.write, Prog.run_bind, Prog.run_atomic, ready]
    simp only [Prog.run_atomic, append]
  · rw [ProjectDbImpl.appended, Directory.read_write, if_pos rfl]

theorem LastLog.writes (log : LastLog name contents db) (ops : List Operation) :
    ∃ after, (forM ops fun op => (MemTableQueue.write fmt op).run : DbM Unit) db = .ok () after ∧
      LastLog name (contents ++ fmt.file ops) after := by
  induction ops generalizing contents db with
  | nil => exact ⟨db, rfl, by simpa [LogFormat.file] using log⟩
  | cons op ops ih =>
    obtain ⟨middle, run, next⟩ := log.write fmt op
    obtain ⟨after, runs, last⟩ := ih next
    refine ⟨after, ?_, by simpa [LogFormat.file] using last⟩
    rw [List.forM_cons, EStateM.bind_ok run]
    exact runs

/-- A log that can be loaded is appended to, whatever is at its end. -/
theorem reopenAndWrite_file {table : Table} (found : db.files.read name = some contents)
    (loads : fmt.load name (.between [] contents) = .ok table) (ops : List Operation) :
    ∃ after, reopenAndWrite fmt name ops db = .ok () after ∧ after.files.read name = some (contents ++ fmt.file ops) := by
  have push : ∃ job pushed, pushFromTransactionLog fmt name true db = .ok job pushed ∧ LastLog name contents pushed := by
    simp only [pushFromTransactionLog, loadTransactionLog, getFileStream, found, loads, bind, EStateM.bind,
      MemTable.create, TransactionLogWritter.reopen, DbM.file, openForAppend, emplaceBack, DbM.change]
    exact ⟨_, _, rfl, ⟨⟨db.nextTable⟩, by simp⟩, found⟩
  obtain ⟨job, pushed, run, log⟩ := push
  obtain ⟨after, runs, last⟩ := log.writes ops
  exact ⟨after, by rw [reopenAndWrite, EStateM.bind_ok run]; exact runs, last.file⟩

end Writing
end MemTableQueue

section Poison

theorem serializeString_eq (s : StdString) : serializeString s = leBytes 8 s.bytes.length ++ s.bytes := by
  have plain (bytes : List Byte) : bytes.flatMap Trivial.toBytes = bytes := by
    induction bytes with
    | nil => rfl
    | cons b rest ih => rw [List.flatMap_cons, ih]; rfl
  have size : (UInt64.ofNat s.bytes.length).toNat = s.bytes.length := UInt64.toNat_ofNat_of_lt' s.size_lt
  rw [serializeString, plain, serializeSize]
  simp only [Trivial.toBytes, size]

/-- A length and as many bytes are the encoding of a string. -/
theorem serializeString_of {size chars : List Byte} (eight : size.length = 8) (length : chars.length = leNat size) :
    ∃ s, serializeString s = size ++ chars := by
  have bound := leNat_lt size
  have back := leBytes_leNat size
  rw [eight] at bound back
  refine ⟨⟨chars, by rw [length]; exact bound⟩, ?_⟩
  rw [serializeString_eq]
  simp only [length, back]

/-- The record of a remove: the tag 2, the length of the key, and the key. -/
theorem record_remove (key : StdString) :
    transactionLog.record (.remove key) = [2, 0, 0, 0] ++ (leBytes 8 key.bytes.length ++ key.bytes) := by
  rw [← serializeString_eq]
  rfl

/-- No tag of a record stands where the bytes go on with another byte than 1 and 2. -/
theorem badTag_drop {bytes : List Byte} {i : Nat} {b : Byte} (here : bytes[i]? = some b) (long : i + 4 ≤ bytes.length)
    (notSet : b ≠ 1) (notRemove : b ≠ 2) : BadTag (bytes.drop i) := by
  obtain ⟨tag, four⟩ := uint32_onto ((bytes.drop i).take 4) (by rw [List.length_take, List.length_drop]; omega)
  have head : (Trivial.toBytes tag)[0]? = some b := by
    rw [← four, List.getElem?_take, List.getElem?_drop]
    simpa using here
  refine ⟨tag, (bytes.drop i).drop 4, by rw [← four, List.take_append_drop], ?_, ?_⟩
  · rintro rfl
    exact notSet (Option.some.inj head).symm
  · rintro rfl
    exact notRemove (Option.some.inj head).symm

theorem zero_behind {before : List Byte} {n i : Nat} (low : before.length ≤ i) (high : i < before.length + n) :
    (before ++ List.replicate n 0)[i]? = some 0 := by
  rw [List.getElem?_append_right low, List.getElem?_replicate, if_pos (by omega)]

/-- The key of `n` zero bytes. -/
def zeros (n : Nat) (small : n < 2 ^ 64) : StdString := ⟨List.replicate n 0, by simpa using small⟩

/-- Operations that make a log unreadable when they are appended behind some bytes. -/
def Poisoned (torn : List Byte) : Prop :=
  ∃ ops : List Operation, (∀ op ∈ ops, op.isRemove = true) ∧ ∃ rs tail,
    torn ++ transactionLog.file ops = recordsBytes rs ++ tail ∧ BadTag tail

/-- A torn tag is completed by the tag of the next record to one that is none. -/
theorem poisoned_tag {torn : List Byte} (isPrefix : torn <+: [2, 0, 0, 0]) (proper : torn ≠ [2, 0, 0, 0])
    (some : torn ≠ []) : Poisoned torn := by
  have length := isPrefix.length_le
  have short : torn.length ≠ 4 := fun same => proper (isPrefix.eq_of_length same)
  have positive : torn.length ≠ 0 := fun zero => some (List.length_eq_zero_iff.mp zero)
  simp only [List.length_cons, List.length_nil] at length
  refine ⟨[.remove .empty], by simp [Operation.isRemove], [], _, rfl, ?_⟩
  rw [List.prefix_iff_eq_take.mp isPrefix]
  have bytes : transactionLog.file [.remove .empty] = 2 :: List.replicate 11 0 := by decide
  rw [bytes]
  rcases (by omega : torn.length = 1 ∨ torn.length = 2 ∨ torn.length = 3) with one | two | three
  · exact one ▸ ⟨514, List.replicate 9 0, by decide, by decide, by decide⟩
  · exact two ▸ ⟨131074, List.replicate 10 0, by decide, by decide, by decide⟩
  · exact three ▸ ⟨33554434, List.replicate 11 0, by decide, by decide, by decide⟩

/-- A torn length goes on with the tag of the next record, and the length that
this makes takes the key to the middle of some zero bytes. -/
theorem poisoned_size {size : List Byte} (short : size.length < 8) : Poisoned ([2, 0, 0, 0] ++ size) := by
  have whole : (size ++ 2 :: List.replicate (7 - size.length) 0).length = 8 := by
    simp only [List.length_append, List.length_cons, List.length_replicate]
    omega
  have bound := leNat_lt (size ++ 2 :: List.replicate (7 - size.length) 0)
  have value := leNat_append size (2 :: List.replicate (7 - size.length) 0)
  rw [whole] at bound
  generalize length : leNat (size ++ 2 :: List.replicate (7 - size.length) 0) = n at bound value
  let left : List Byte := List.replicate (4 + size.length) 0 ++ ([2, 0, 0, 0] ++ (leBytes 8 n ++ List.replicate n 0))
  have room : left.length = 16 + size.length + n := by
    simp only [left, List.length_append, List.length_replicate, List.length_cons, List.length_nil, length_leBytes]
    omega
  obtain ⟨key, bytes⟩ := @serializeString_of _ (left.take n) whole (by rw [length, List.length_take]; omega)
  refine ⟨[.remove .empty, .remove (zeros n bound)], by simp [Operation.isRemove], [.remove ⟨key⟩], left.drop n, ?_, ?_⟩
  · have empty : transactionLog.record (.remove .empty) =
        (2 :: List.replicate (7 - size.length) 0) ++ List.replicate (4 + size.length) 0 := by
      rw [List.cons_append, ← List.replicate_add, show 7 - size.length + (4 + size.length) = 11 by omega]
      decide
    have zero : transactionLog.record (.remove (zeros n bound)) = [2, 0, 0, 0] ++ (leBytes 8 n ++ List.replicate n 0) := by
      rw [record_remove, zeros, List.length_replicate]
    have record : recordsBytes [.remove ⟨key⟩] = [2, 0, 0, 0] ++ serializeString key := by
      rw [recordsBytes_cons, recordsBytes_nil, List.append_nil]
      rfl
    rw [record, bytes, List.append_assoc, List.append_assoc, List.append_assoc, List.take_append_drop]
    simp only [LogFormat.file, List.flatMap_cons, List.flatMap_nil, List.append_nil, empty, zero, List.append_assoc, left]
  · refine badTag_drop (b := 0) ?_ (by omega) (by decide) (by decide)
    have two : leNat (2 :: List.replicate (7 - size.length) 0) = 2 + 256 * leNat (List.replicate (7 - size.length) 0) := rfl
    by_cases none : size.length = 0
    · obtain rfl := List.length_eq_zero_iff.mp none
      obtain rfl : n = 2 := value.trans (by decide)
      rfl
    · have large : 256 ≤ 256 ^ size.length := Nat.le_self_pow none 256
      have far : 16 + size.length ≤ n := by
        have least : 256 * 2 ≤ 256 ^ size.length * leNat (2 :: List.replicate (7 - size.length) 0) :=
          Nat.mul_le_mul large (by omega)
        omega
      have split : left = (List.replicate (4 + size.length) 0 ++ ([2, 0, 0, 0] ++ leBytes 8 n)) ++ List.replicate n 0 := by
        simp only [left, List.append_assoc]
      have before : (List.replicate (4 + size.length) (0 : Byte) ++ ([2, 0, 0, 0] ++ leBytes 8 n)).length =
          16 + size.length := by
        simp only [List.length_append, List.length_replicate, List.length_cons, List.length_nil, length_leBytes]
        omega
      rw [split]
      exact zero_behind (by omega) (by omega)

/-- A torn key is completed by the next record, which can be made to end it where no tag stands. -/
theorem poisoned_key {n : Nat} {part : List Byte} (bound : n < 2 ^ 64) (short : part.length < n) :
    Poisoned ([2, 0, 0, 0] ++ (leBytes 8 n ++ part)) := by
  generalize missing : n - part.length = c
  generalize same : max c 255 = size
  have small : size < 2 ^ 64 := by omega
  let next : List Byte := [2, 0, 0, 0] ++ (leBytes 8 size ++ List.replicate size 0)
  have length : next.length = 12 + size := by
    simp only [next, List.length_append, List.length_replicate, List.length_cons, List.length_nil, length_leBytes]
    omega
  have record : transactionLog.record (.remove (zeros size small)) = next := by
    rw [record_remove, zeros, List.length_replicate]
  obtain ⟨key, bytes⟩ := @serializeString_of (leBytes 8 n) (part ++ next.take c) (length_leBytes ..) (by
    rw [leNat_leBytes (show n < 256 ^ 8 by omega), List.length_append, List.length_take]
    omega)
  refine ⟨[.remove (zeros size small)], by simp [Operation.isRemove], [.remove ⟨key⟩], next.drop c, ?_, ?_⟩
  · have whole : recordsBytes [.remove ⟨key⟩] = [2, 0, 0, 0] ++ serializeString key := by
      rw [recordsBytes_cons, recordsBytes_nil, List.append_nil]
      rfl
    rw [whole, bytes, List.append_assoc, List.append_assoc, List.append_assoc, List.append_assoc, List.append_assoc,
      List.take_append_drop]
    simp only [LogFormat.file, List.flatMap_cons, List.flatMap_nil, List.append_nil, record]
  · by_cases far : 12 ≤ c
    · have split : next = ([2, 0, 0, 0] ++ leBytes 8 size) ++ List.replicate size 0 := by
        simp only [next, List.append_assoc]
      have before : ([2, 0, 0, 0] ++ leBytes 8 size).length = 12 := by
        simp only [List.length_append, List.length_cons, List.length_nil, length_leBytes]
      refine badTag_drop (b := 0) ?_ (by omega) (by decide) (by decide)
      rw [split]
      exact zero_behind (by omega) (by omega)
    · obtain rfl : size = 255 := by omega
      have inside : c < next.length := by omega
      have front : next[c]? = ([2, 0, 0, 0] ++ leBytes 8 255)[c]? := by
        simp only [next, ← List.append_assoc]
        exact List.getElem?_append_left (by simp only [List.length_append, List.length_cons, List.length_nil, length_leBytes]; omega)
      have other : ∀ i : Fin 12, i.val ≠ 0 →
          ([2, 0, 0, 0] ++ leBytes 8 255)[i.val]? ≠ some 1 ∧ ([2, 0, 0, 0] ++ leBytes 8 255)[i.val]? ≠ some 2 := by decide
      obtain ⟨notSet, notRemove⟩ := other ⟨c, by omega⟩ (by simp only; omega)
      rw [← front, List.getElem?_eq_getElem inside, ne_eq, Option.some.injEq] at notSet notRemove
      exact badTag_drop (List.getElem?_eq_getElem inside) (by omega) notSet notRemove

theorem poisoned_record {key : StdString} {torn : List Byte} (isPrefix : torn <+: transactionLog.record (.remove key))
    (proper : torn ≠ transactionLog.record (.remove key)) (some : torn ≠ []) : Poisoned torn := by
  rw [record_remove] at isPrefix proper
  rcases List.prefix_append_cases isPrefix with ⟨short, inside⟩ | ⟨rest, rfl, later⟩
  · exact poisoned_tag short inside some
  · rcases List.prefix_append_cases later with ⟨short, inside⟩ | ⟨part, rfl, chars⟩
    · refine poisoned_size ?_
      have length := short.length_le
      have different : rest.length ≠ 8 := fun same => inside (short.eq_of_length (same.trans (length_leBytes ..).symm))
      rw [length_leBytes] at length
      omega
    · refine poisoned_key key.size_lt (lt_of_le_of_ne chars.length_le fun same => proper ?_)
      rw [chars.eq_of_length same]

end Poison

/-- The operations whose records are complete in a log that has been cut off. -/
structure CompleteIn (torn : List Byte) (ops done : List Operation) : Prop where
  isPrefix : torn <+: transactionLog.file ops
  first : done <+: ops
  fits : transactionLog.file done <+: torn
  longest : ∀ op, done ++ [op] <+: ops → ¬ transactionLog.file (done ++ [op]) <+: torn

/-- Behind the complete records stands a proper prefix of the next one. -/
theorem CompleteIn.tail {torn : List Byte} {ops done : List Operation} (complete : CompleteIn torn ops done) :
    ∃ tail, torn = transactionLog.file done ++ tail ∧
      (tail = [] ∨ ∃ op ∈ ops, tail <+: transactionLog.record op ∧ tail ≠ transactionLog.record op) := by
  obtain ⟨tail, rfl⟩ := complete.fits
  obtain ⟨left, rfl⟩ := complete.first
  refine ⟨tail, rfl, ?_⟩
  have later : tail <+: transactionLog.file left := by
    have whole := complete.isPrefix
    rwa [LogFormat.file, LogFormat.file, List.flatMap_append, List.prefix_append_right_inj] at whole
  cases left with
  | nil => exact Or.inl (List.prefix_nil.mp later)
  | cons op left =>
    have cut : ¬ transactionLog.record op <+: tail := fun fits =>
      complete.longest op ((List.prefix_append_right_inj done).mpr (List.prefix_append [op] left))
        (by simpa [LogFormat.file] using fits)
    rcases List.prefix_append_cases later with inside | ⟨more, rfl, _⟩
    · exact Or.inr ⟨op, by simp, inside⟩
    · exact absurd (List.prefix_append ..) cut

section Reloading
variable {db : ProjectDbImpl} {name : FileName} {torn : List Byte} {ops done : List Operation}

/-- Whatever is removed after the log has been reopened, the log loads back to
the complete operations and these. -/
def Reloads (name : FileName) (db : ProjectDbImpl) (done : List Operation) : Prop :=
  ∀ more : List Operation, (∀ op ∈ more, op.isRemove = true) → ∃ after,
    MemTableQueue.reopenAndWrite transactionLog name more db = .ok () after ∧
      transactionLog.load name (getFileStream after.files name) = .ok (replay (done ++ more))

theorem reopened_stream {table : Table} (found : db.files.read name = some torn)
    (loads : transactionLog.load name (.between [] torn) = .ok table) (more : List Operation) :
    ∃ after, MemTableQueue.reopenAndWrite transactionLog name more db = .ok () after ∧
      getFileStream after.files name = .between [] (torn ++ transactionLog.file more) := by
  obtain ⟨after, run, file⟩ := MemTableQueue.reopenAndWrite_file found loads more
  exact ⟨after, run, by rw [getFileStream, file]⟩

/-- A reopened log keeps what is written to it exactly when the crash has cut
it between two records. -/
theorem reloads_iff (removes : ∀ op ∈ ops, op.isRemove = true) (complete : CompleteIn torn ops done)
    (found : db.files.read name = some torn) : Reloads name db done ↔ torn = transactionLog.file done := by
  have finished : ∀ op ∈ done, op.isRemove = true := fun op member => removes op (complete.first.subset member)
  obtain ⟨_, _, _, _, _, loads⟩ :=
    TransactionLogLoader.load_truncated name _ ((file_removes removes).1 ▸ complete.isPrefix)
  constructor
  · intro reloads
    obtain ⟨tail, split, none | ⟨op, member, short, proper⟩⟩ := complete.tail
    · rw [split, none, List.append_nil]
    · by_contra different
      obtain ⟨key, rfl⟩ := Operation.eq_remove (removes op member)
      have some : tail ≠ [] := fun none => different (by rw [split, none, List.append_nil])
      obtain ⟨more, removesMore, rs, rest, bytes, bad⟩ := poisoned_record short proper some
      obtain ⟨after, run, reload⟩ := reloads more removesMore
      obtain ⟨after', run', stream⟩ := reopened_stream found loads more
      rw [run] at run'
      cases run'
      have contents : torn ++ transactionLog.file more =
          recordsBytes ((done.map fun op => .remove op.key) ++ rs) ++ rest := by
        rw [split, List.append_assoc, bytes, recordsBytes_append, List.append_assoc, (file_removes finished).1]
      obtain ⟨msg, failed⟩ := (TransactionLogLoader.load_records name _ bad.no_record).1 bad
      rw [stream, contents] at reload
      exact absurd (reload.symm.trans failed) (by simp)
  · intro between more removesMore
    obtain ⟨after, run, stream⟩ := reopened_stream found loads more
    refine ⟨after, run, ?_⟩
    have whole : torn ++ transactionLog.file more = transactionLog.file (done ++ more) := by
      rw [between, LogFormat.file, LogFormat.file, LogFormat.file, List.flatMap_append]
    rw [stream, whole]
    exact TransactionLogLoader.load_removes name fun op member =>
      (List.mem_append.mp member).elim (finished op) (removesMore op)

end Reloading

section Sample

def tornKey : StdString := ⟨[116], by decide⟩

/-- A new database whose only log has these contents. -/
def withLog (contents : List Byte) : ProjectDbImpl :=
  .fresh (Directory.write ∅ (genTransactionLogFileName 0) contents) 0 0 0

theorem withLog_read (contents : List Byte) : (withLog contents).files.read (genTransactionLogFileName 0) = some contents := by
  rw [withLog, ProjectDbImpl.fresh, Directory.read_write, if_pos rfl]

/-- A log that ends with its record goes on with what is written next. -/
theorem reloads_whole :
    let ops : List Operation := [.remove tornKey]
    Reloads (genTransactionLogFileName 0) (withLog (transactionLog.file ops)) ops := by
  intro ops
  have complete : CompleteIn (transactionLog.file ops) ops ops := by
    refine ⟨List.prefix_refl _, List.prefix_refl _, List.prefix_refl _, fun op longer => ?_⟩
    have length := longer.length_le
    rw [List.length_append, List.length_singleton] at length
    exact absurd length (Nat.not_succ_le_self _)
  exact (reloads_iff (by simp [ops, Operation.isRemove]) complete (withLog_read _)).mpr rfl

/-- Of a record of one remove only the first byte has been written: with the
next record behind it the log cannot be loaded. -/
theorem torn_log_poisons :
    let ops : List Operation := [.remove tornKey]
    CompleteIn [2] ops [] ∧ ¬ Reloads (genTransactionLogFileName 0) (withLog [2]) [] := by
  intro ops
  constructor
  · refine ⟨by decide, List.nil_prefix .., List.nil_prefix .., fun op longer fits => ?_⟩
    have four := TransactionLogLoader.four_le_record op
    have length := fits.length_le
    simp [LogFormat.file] at length
    omega
  · intro reloads
    obtain ⟨after, run, reload⟩ := reloads ops (by simp [ops, Operation.isRemove])
    have empty : transactionLog.load (genTransactionLogFileName 0) (.between [] [2]) = .ok .empty := by rfl
    obtain ⟨after', run', stream⟩ := reopened_stream (withLog_read [2]) empty ops
    rw [run] at run'
    cases run'
    have bad : BadTag ([2] ++ transactionLog.file ops) := ⟨514, [0, 1, 0, 0, 0, 0, 0, 0, 0, 116], by decide, by decide, by decide⟩
    obtain ⟨msg, failed⟩ := (TransactionLogLoader.load_records (genTransactionLogFileName 0) [] bad.no_record).1 bad
    rw [stream] at reload
    exact absurd (reload.symm.trans failed) (by simp)

end Sample
end ProjectDb
