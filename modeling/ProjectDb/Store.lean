import ProjectDb.QueueRuns
import ProjectDb.SessionAnswers

namespace ProjectDb

/-- A MemTable with its log: the bytes and the table that they came with, and
what has been written to both since, oldest first. -/
structure Layer where
  log : List Byte
  table : Table
  writes : List Operation

namespace Layer

def new : Layer := ⟨[], .empty, []⟩

/-- The log file. -/
def contents (fmt : LogFormat) (l : Layer) : List Byte := l.log ++ fmt.file l.writes

def current (l : Layer) : Table := l.writes.foldl Operation.apply l.table

def write (op : Operation) (l : Layer) : Layer := { l with writes := l.writes ++ [op] }

def full (cfg : Config) (l : Layer) : Bool := l.current.needsFlushToDisk cfg.memTableApproximateMaxSizeInBytes

@[simp] theorem contents_new (fmt : LogFormat) : new.contents fmt = [] := rfl

@[simp] theorem current_new : new.current = .empty := rfl

@[simp] theorem contents_write (fmt : LogFormat) (op : Operation) (l : Layer) :
    (l.write op).contents fmt = l.contents fmt ++ fmt.record op := by
  simp [contents, write, LogFormat.file, List.flatMap_append]

@[simp] theorem current_write (op : Operation) (l : Layer) : (l.write op).current = op.apply l.current := by
  simp [current, write, List.foldl_append]

end Layer

/-- What a database comes to: tables that do not change any more, the place from
which the next compaction takes them, and MemTables; all from old to new. -/
structure Store where
  ssTables : List SSTable
  start : Nat
  memTables : List Layer

namespace Store

def layers (s : Store) : List Table := (s.ssTables.map fun t => t.table) ++ s.memTables.map Layer.current

def answer (s : Store) : KeyMap := fun key => (lookup s.layers ⟨key⟩).bind Value.underlyingValue

/-- What happens beside the writes: the oldest MemTable becomes an SSTable, or a
permitted window of SSTables is compacted. -/
inductive Background (cfg : Config) (permit : List SSTable → Nat → Prop) : Store → Store → Prop
  | hand {ssTables : List SSTable} {start : Nat} {layer : Layer} {memTables : List Layer} {t : SSTable} :
      t.table = layer.current → memTables ≠ [] →
      Background cfg permit ⟨ssTables, start, layer :: memTables⟩ ⟨ssTables ++ [t], start, memTables⟩
  | compact {ssTables : List SSTable} {start : Nat} {memTables : List Layer} : permit ssTables start →
      cfg.numSSTableToCompact.toNat ≠ 0 → start + cfg.numSSTableToCompact.toNat < ssTables.length →
      Background cfg permit ⟨ssTables, start, memTables⟩
        ⟨(afterCompaction cfg ssTables start).1, (afterCompaction cfg ssTables start).2, memTables⟩

abbrev Settles (cfg : Config) (permit : List SSTable → Nat → Prop) : Store → Store → Prop :=
  Relation.ReflTransGen (Background cfg permit)

/-- What happens while no compaction is installed. -/
abbrev Hands (cfg : Config) : Store → Store → Prop := Settles cfg fun _ _ => False

/-- What a compaction leaves of a store. -/
def compacted (cfg : Config) (s : Store) : Store :=
  ⟨(afterCompaction cfg s.ssTables s.start).1, (afterCompaction cfg s.ssTables s.start).2, s.memTables⟩

/-- Make sure that there is a MemTable to write to. -/
def prepare (s : Store) : Store := if s.memTables = [] then { s with memTables := [.new] } else s

/-- Write to the newest MemTable and to its log. -/
def append (op : Operation) (s : Store) : Store :=
  { s with memTables := s.memTables.dropLast ++ s.memTables.getLast?.toList.map (Layer.write op) }

/-- A MemTable that has become large gets another one on top. -/
def roll (cfg : Config) (s : Store) : Store :=
  if s.memTables.getLast?.any (Layer.full cfg) then { s with memTables := s.memTables ++ [.new] } else s

open ProjectDbImpl (Call Harmless)

/-- The store after a call that finds `s`. -/
def called (cfg : Config) (call : Call) (s : Store) : Store :=
  match call.operation with
  | none => s
  | some op => (s.prepare.append op).roll cfg

/-- A store that a call which starts in `s` goes through before it writes. -/
inductive Before (cfg : Config) (permit : List SSTable → Nat → Prop) (call : Call) (s : Store) : Store → Prop
  | settled {m : Store} : Settles cfg permit s m → Before cfg permit call s m
  | prepared {m : Store} {op : Operation} : Settles cfg permit s m → call.operation = some op →
      Before cfg permit call s m.prepare

/-- A store that it goes through from its write on. -/
inductive After (cfg : Config) (permit : List SSTable → Nat → Prop) (call : Call) (s : Store) : Store → Prop
  | appended {m : Store} {op : Operation} : Settles cfg permit s m → call.operation = some op →
      After cfg permit call s (m.prepare.append op)
  | rolled {m : Store} {op : Operation} : Settles cfg permit s m → call.operation = some op →
      After cfg permit call s ((m.prepare.append op).roll cfg)

variable {cfg : Config} {permit : List SSTable → Nat → Prop} {s m t : Store} {op : Operation} {call : Call}

theorem Before.trans (settles : Settles cfg permit s m) (before : Before cfg permit call m t) : Before cfg permit call s t := by
  cases before with
  | settled more => exact .settled (settles.trans more)
  | prepared more write => exact .prepared (settles.trans more) write

theorem After.trans (settles : Settles cfg permit s m) (after : After cfg permit call m t) : After cfg permit call s t := by
  cases after with
  | appended more write => exact .appended (settles.trans more) write
  | rolled more write => exact .rolled (settles.trans more) write

section Called

theorem prepare_memTables (s : Store) : ∃ earlier l, s.prepare.memTables = earlier ++ [l] := by
  unfold prepare
  split_ifs with none
  · exact ⟨[], .new, rfl⟩
  · exact (List.eq_nil_or_concat' s.memTables).resolve_left none

theorem called_ssTables (cfg : Config) (call : Call) (t : Store) :
    (t.called cfg call).ssTables = t.ssTables ∧ (t.called cfg call).start = t.start := by
  unfold Store.called Store.roll Store.append Store.prepare
  cases call.operation with
  | none => exact ⟨rfl, rfl⟩
  | some op => refine ⟨?_, ?_⟩ <;> dsimp only <;> split_ifs <;> rfl

theorem prepare_length (s : Store) : s.prepare.memTables.length = max s.memTables.length 1 := by
  unfold prepare
  split_ifs with none
  · rw [none]
    rfl
  · have positive := List.length_pos_iff.mpr none
    omega

/-- A write adds one MemTable at most, besides the first one. -/
theorem called_length (cfg : Config) (call : Call) (s : Store) :
    (s.called cfg call).memTables.length ≤ max s.memTables.length 1 + call.operation.toList.length := by
  unfold called
  cases call.operation with
  | none => exact le_max_left _ _
  | some op =>
    obtain ⟨earlier, l, queue⟩ := s.prepare_memTables
    have prepared := s.prepare_length
    have appended : (s.prepare.append op).memTables.length = s.prepare.memTables.length := by simp [append, queue]
    dsimp only
    unfold roll
    split_ifs
    · rw [List.length_append, appended, prepared]
      rfl
    · rw [appended, prepared]
      exact Nat.le_add_right _ _

end Called

section Hands

theorem Hands.settles (hands : Hands cfg s t) : Settles cfg permit s t := by
  refine Relation.ReflTransGen.mono (fun s t step => ?_) _ _ hands
  cases step with
  | hand same some => exact .hand same some
  | compact never => exact never.elim

/-- The oldest MemTables have become the newest SSTables. -/
theorem Hands.appends (hands : Hands cfg s t) : ∃ moved added, s.memTables = moved ++ t.memTables ∧
    t.ssTables = s.ssTables ++ added ∧ (added.map fun x => x.table) = moved.map Layer.current := by
  induction hands with
  | refl => exact ⟨[], [], rfl, (List.append_nil _).symm, rfl⟩
  | tail _ step ih =>
    obtain ⟨moved, added, memTables, ssTables, same⟩ := ih
    cases step with
    | @hand before _ layer rest x table _ =>
      refine ⟨moved ++ [layer], added ++ [x], ?_, ?_, ?_⟩
      · rw [List.append_assoc]
        exact memTables
      · rw [← List.append_assoc]
        exact congrArg (· ++ [x]) ssTables
      · rw [List.map_append, List.map_append, same, List.map_singleton, List.map_singleton, table]
    | compact never => exact never.elim

end Hands

section Answers

theorem append_concat {ssTables : List SSTable} {start : Nat} {earlier : List Layer} {l : Layer} :
    append op ⟨ssTables, start, earlier ++ [l]⟩ = ⟨ssTables, start, earlier ++ [l.write op]⟩ := by
  simp [append]

theorem answer_new_on_top (s : Store) : answer { s with memTables := s.memTables ++ [.new] } = s.answer := by
  funext key
  rw [answer, layers, List.map_append, ← List.append_assoc]
  change (lookup (s.layers ++ [.empty]) ⟨key⟩).bind _ = _
  rw [ProjectDbImpl.lookup_empty_on_top]
  rfl

theorem answer_prepare (s : Store) : s.prepare.answer = s.answer := by
  unfold prepare
  split_ifs with none
  · rw [← answer_new_on_top s, none]
    rfl
  · rfl

theorem answer_roll (cfg : Config) (s : Store) : (s.roll cfg).answer = s.answer := by
  unfold roll
  split_ifs
  · exact answer_new_on_top s
  · rfl

theorem lookup_append_write {earlier : List Layer} {l : Layer} (queue : s.memTables = earlier ++ [l]) (key : Key) :
    lookup (s.append op).layers key = if key = op.key then some op.written else lookup s.layers key := by
  obtain ⟨ssTables, start, memTables⟩ := s
  obtain rfl : memTables = _ := queue
  rw [append_concat, layers, layers, List.map_append, List.map_append, List.map_singleton, List.map_singleton,
    Layer.current_write, ← List.append_assoc, ← List.append_assoc]
  exact ProjectDbImpl.lookup_apply_on_top _ _ _ _

/-- A call leaves the map of the store as it leaves any map. -/
theorem answer_append (write : call.operation = some op) {earlier : List Layer} {l : Layer}
    (queue : s.memTables = earlier ++ [l]) : (s.append op).answer = KeyMap.after s.answer call := by
  funext key
  rw [answer, lookup_append_write queue]
  cases call with
  | get other => contradiction
  | set other value =>
    cases write
    rw [KeyMap.after, Function.update_apply]
    simp only [Operation.key, Key.mk.injEq]
    split_ifs <;> rfl
  | remove other =>
    cases write
    rw [KeyMap.after, Function.update_apply]
    simp only [Operation.key, Key.mk.injEq]
    split_ifs <;> rfl

theorem answer_called (cfg : Config) (call : Call) (s : Store) :
    (s.called cfg call).answer = KeyMap.after s.answer call := by
  unfold called
  cases write : call.operation with
  | none => cases call <;> first | rfl | contradiction
  | some op =>
    obtain ⟨earlier, l, queue⟩ := s.prepare_memTables
    rw [answer_roll, answer_append write queue, answer_prepare]

theorem tables_afterCompaction (cfg : Config) (tables : List SSTable) (start : Nat) :
    ((afterCompaction cfg tables start).1.map fun s => s.table) =
      (compactionGroups cfg tables start (cfg.numSSTableToCompact.toNat + 1)).map
        fun group => (mergeGroup group).table := by
  have singles (xs : List SSTable) : (xs.map fun s => s.table) =
      (xs.map ([·])).map fun group => (mergeGroup group).table := by
    rw [List.map_map]
    rfl
  simp only [afterCompaction, windowOf, compactionGroups, List.map_append]
  rw [singles (tables.take start), singles (tables.drop _)]
  simp only [List.map_map]
  rfl

/-- What happens beside the writes changes no answer, as long as no compaction
brings a deleted key back. -/
theorem Background.answer (step : Background cfg (Harmless cfg) s t) : t.answer = s.answer := by
  funext key
  cases step with
  | @hand ssTables start layer memTables x same _ =>
    unfold Store.answer layers
    rw [List.map_append, List.map_singleton, same, List.append_assoc, List.map_cons, List.singleton_append]
  | @compact ssTables start memTables harmless =>
    unfold Store.answer layers
    rw [lookup_append, lookup_append, tables_afterCompaction]
    cases lookup (memTables.map Layer.current) ⟨key⟩ with
    | none => exact ProjectDbImpl.lookup_harmless harmless ⟨key⟩
    | some value => rfl

theorem Settles.answer (settles : Settles cfg (Harmless cfg) s t) : t.answer = s.answer := by
  induction settles with
  | refl => rfl
  | tail _ step ih => exact step.answer.trans ih

theorem Before.answer (before : Before cfg (Harmless cfg) call s t) : t.answer = s.answer := by
  cases before with
  | settled settles => exact settles.answer
  | prepared settles => exact (answer_prepare _).trans settles.answer

theorem After.answer (after : After cfg (Harmless cfg) call s t) : t.answer = KeyMap.after s.answer call := by
  have appended {m : Store} {op : Operation} (settles : Settles cfg (Harmless cfg) s m)
      (write : call.operation = some op) : (m.prepare.append op).answer = KeyMap.after s.answer call := by
    obtain ⟨earlier, l, queue⟩ := m.prepare_memTables
    rw [answer_append write queue, answer_prepare, settles.answer]
  cases after with
  | appended settles write => exact appended settles write
  | rolled settles write => exact (answer_roll cfg _).trans (appended settles write)

end Answers
end Store
end ProjectDb
