import ProjectDb.JobSteps

namespace ProjectDb

theorem forall₂_append_left {α β : Type} {R : α → β → Prop} {xs xs' : List α} {ys : List β}
    (same : List.Forall₂ R (xs ++ xs') ys) :
    ∃ zs zs', List.Forall₂ R xs zs ∧ List.Forall₂ R xs' zs' ∧ ys = zs ++ zs' := by
  refine ⟨ys.take xs.length, ys.drop xs.length, ?_, ?_, (List.take_append_drop _ _).symm⟩
  · have front := List.forall₂_take xs.length same
    rwa [List.take_left'  rfl] at front
  · have back := List.forall₂_drop xs.length same
    rwa [List.drop_left' rfl] at back

theorem newest_eq_findSome? {τ κ ν : Type} (find : τ → κ → Option ν) (layers : List τ) (key : κ) :
    newest find layers key = layers.reverse.findSome? fun layer => find layer key := by
  induction layers with
  | nil => rfl
  | cons layer newer ih =>
    rw [newest_cons, List.reverse_cons, List.findSome?_append, ih, List.findSome?_singleton]

section SameElements
variable {files : Files}

theorem SameElements.head {xs ys : List Indexed} (same : SameElements xs ys) {x : Indexed} (head : xs.head? = some x) :
    ∃ y, ys.head? = some y ∧ x.1.ssTableFileName = y.1.ssTableFileName := by
  cases same with
  | nil => contradiction
  | cons first _ =>
    cases head
    exact ⟨_, rfl, first.1⟩

theorem SameElements.groups (cfg : Config) {xs ys : List Indexed} (same : SameElements xs ys) :
    List.Forall₂ SameElements (groupsOfRange cfg xs) (groupsOfRange cfg ys) := by
  refine groups_forall₂ _ _ _ (fun x y equal => ?_) (fun size x y equal => ?_) same
  · rw [equal.2]
  · rw [equal.2]

/-- A merged table is as good for the same group with other open streams. -/
theorem Merged.same {group other : List Indexed} {index : SSTableIndex} (merged : Merged files group index)
    (same : SameElements group other) : Merged files other index := by
  obtain ⟨holds, first, head, named⟩ := merged
  obtain ⟨y, headOther, names⟩ := same.head head
  exact ⟨same.tables ▸ holds, y, headOther, names ▸ named⟩

theorem merged_same {merged : List (List Indexed × SSTableIndex)} {groups : List (List Indexed)}
    (all : ∀ m ∈ merged, Merged files m.1 m.2) (same : List.Forall₂ SameElements (merged.map Prod.fst) groups) :
    ∃ others : List (List Indexed × SSTableIndex), others.map Prod.fst = groups ∧
      others.map Prod.snd = merged.map Prod.snd ∧ ∀ m ∈ others, Merged files m.1 m.2 := by
  induction merged generalizing groups with
  | nil =>
    cases same
    exact ⟨[], rfl, rfl, by simp⟩
  | cons m rest ih =>
    rcases same with _ | ⟨first, later⟩
    rename_i group groups
    obtain ⟨others, fsts, snds, holds⟩ := ih (fun n member => all n (List.mem_cons_of_mem _ member)) later
    refine ⟨(group, m.2) :: others, by rw [List.map_cons, fsts], by rw [List.map_cons, snds, List.map_cons], ?_⟩
    intro n member
    rcases List.mem_cons.mp member with rfl | member
    · exact (all m (List.mem_cons_self ..)).same first
    · exact holds n member

end SameElements

/-- What the database has under a key. -/
def View.answer (v : View) (key : StdString) : Option StdString := (lookup v.layers ⟨key⟩).bind Value.underlyingValue

namespace ProjectDbImpl

variable {cfg : Config} {permit : List SSTable → Nat → Prop} {v : View} {db : ProjectDbImpl}

/-- The state after some files of the queue have been opened. -/
def reseated (db : ProjectDbImpl) (ys : List Indexed) : ProjectDbImpl :=
  { db with ssTableIndexQueue := { db.ssTableIndexQueue with queue := ys.map Prod.fst } }

theorem Compacted.same {job : CompactionJob} {I : Install} (compacted : Compacted cfg v db job I) {ys : List Indexed}
    (same : SameElements v.queue ys) :
    ∃ J : Install, Compacted cfg { v with queue := ys } (db.reseated ys) job J ∧
      J.merged.map Prod.snd = I.merged.map Prod.snd := by
  obtain ⟨before, start, wide, groups, nonempty, all⟩ := compacted
  rw [← before] at same
  obtain ⟨low, above, front, aboves, rfl⟩ := forall₂_append_left same
  obtain ⟨below, window, belows, windows, rfl⟩ := forall₂_append_left front
  have cut := SameElements.groups cfg windows
  rw [← groups] at cut
  obtain ⟨merged, fsts, snds, holds⟩ := merged_same all cut
  refine ⟨⟨below, window, above, merged⟩, ⟨rfl, ?_, ?_, fsts, ?_, holds⟩, snds⟩
  · rw [← start]
    exact belows.length_eq.symm
  · rw [← wide]
    exact windows.length_eq.symm
  · rintro rfl
    exact nonempty (List.map_eq_nil_iff.mp snds.symm)

/-- Opening files of the queue keeps the invariant. -/
theorem Inv.reseat (inv : Inv cfg permit v db) {ys : List Indexed} (same : SameElements v.queue ys)
    (onDisk : OnDisk db.files (ys.map Prod.fst) ys) : Inv cfg permit { v with queue := ys } (db.reseated ys) := by
  obtain ⟨flushing, logging, shelved, compacting⟩ := inv
  have counters : (View.shelf { v with queue := ys }).map counterOf = v.shelf.map counterOf := by
    have names := congrArg (List.map FileName.counter) same.names
    rw [List.map_map, List.map_map] at names
    rw [View.shelf, View.shelf, List.map_append, List.map_append]
    exact congrArg (· ++ _) names.symm
  have names : (View.shelf { v with queue := ys }).map (fun x => x.1.ssTableFileName) =
      v.shelf.map fun x => x.1.ssTableFileName := by
    rw [View.shelf, View.shelf, List.map_append, List.map_append, same.names]
  refine ⟨?_, ⟨logging.names, logging.files, logging.order, logging.base⟩, ?_, ?_⟩
  · refine ⟨flushing.early, flushing.taken, flushing.aligned, flushing.distinct, flushing.allocated, flushing.memory,
      flushing.retired, flushing.sound, flushing.named, ?_, ?_⟩
    · rw [counters]
      exact flushing.order
    · rw [counters]
      exact flushing.base
  · refine ⟨rfl, fun x member => ?_, fun x member => ?_, ?_, ?_⟩
    · rcases List.mem_append.mp member with inQueue | handed
      · exact onDisk.holds x inQueue
      · exact shelved.holds x (List.mem_append_right _ handed)
    · have listed : x.1.ssTableFileName ∈ v.shelf.map fun y => y.1.ssTableFileName := by
        rw [← names]
        exact List.mem_map_of_mem member
      obtain ⟨y, inside, equal⟩ := List.mem_map.mp listed
      have named := shelved.named y inside
      rw [counterOf, equal] at named
      exact named
    · rw [names]
      exact shelved.listed
    · have lengths := same.length_eq
      rw [← lengths]
      exact shelved.start
  · intro job launched
    obtain ⟨begins, ends, positive, inside, state⟩ := compacting job launched
    refine ⟨begins, ends, positive, fun small => (inside small).trans same.length_eq.le, state.imp_right ?_⟩
    rintro ⟨I, ready, compacted, permitted⟩
    obtain ⟨J, still, merged⟩ := compacted.same same
    exact ⟨J, merged ▸ ready, still, same.tables ▸ permitted⟩

/-- `get` answers with the newest entry of the MemTables and the SSTables. -/
theorem Inv.find (inv : Inv cfg permit v db) (key : StdString) :
    ∃ ys, ProjectDbImpl.find cfg key db = .ok (v.answer key) (db.reseated ys) ∧ SameElements v.queue ys ∧
      Inv cfg permit { v with queue := ys } (db.reseated ys) := by
  have memory : MemTableQueue.get db key = lookup v.memory ⟨key⟩ := by
    rw [lookup, newest_eq_findSome?, ← inv.flushing.memory, ← List.map_reverse, List.findSome?_map]
    rfl
  have layers : lookup v.layers ⟨key⟩ = (lookup v.memory ⟨key⟩).or (lookup (tablesOf v.queue) ⟨key⟩) :=
    newest_append _ _ _ _
  cases found : lookup v.memory ⟨key⟩ with
  | some value =>
    have same : db.reseated v.queue = db := by
      rw [reseated, inv.shelved.queue]
    refine ⟨v.queue, ?_, SameElements.refl _, by rw [same]; exact inv⟩
    simp only [ProjectDbImpl.find, DbM.current, bind, EStateM.bind, memory, found, same, View.answer, layers,
      Option.some_or, Option.bind_some]
    rfl
  | none =>
    obtain ⟨ys, run, same, onDisk⟩ := SSTableIndexQueue.get_spec cfg inv.onDisk key
    refine ⟨ys, ?_, same, inv.reseat same onDisk⟩
    simp only [ProjectDbImpl.find, DbM.current, bind, EStateM.bind, memory, found, run, View.answer, layers,
      Option.none_or]
    cases lookup (tablesOf v.queue) ⟨key⟩ <;> rfl

/-- What the database answers for a key, without a check of the futures. -/
def answer (cfg : Config) (db : ProjectDbImpl) (key : StdString) : Except Exn (Option StdString) :=
  match ProjectDbImpl.find cfg key db with
  | .ok found _ => .ok found
  | .error e _ => .error e

theorem Inv.answer (inv : Inv cfg permit v db) (key : StdString) :
    ProjectDbImpl.answer cfg db key = .ok (v.answer key) := by
  obtain ⟨ys, run, _⟩ := inv.find key
  rw [ProjectDbImpl.answer, run]

end ProjectDbImpl
end ProjectDb
