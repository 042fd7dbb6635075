import Mathlib.Data.List.AList

/-- A directory: finitely many names, each with the contents of its file. -/
abbrev Directory (ν β : Type) := AList (fun _ : ν => β)

namespace Directory
variable {ν β : Type}

def names (d : Directory ν β) : List ν := d.keys

theorem names_nodup (d : Directory ν β) : d.names.Nodup := d.nodupKeys

variable [DecidableEq ν]

def read (d : Directory ν β) (name : ν) : Option β := AList.lookup name d

/-- Create a file, or replace its contents. -/
def write (d : Directory ν β) (name : ν) (contents : β) : Directory ν β := AList.insert name contents d

def remove (d : Directory ν β) (name : ν) : Directory ν β := AList.erase name d

/-- Rename a file, replacing the target; there is no result when the file does not exist. -/
def rename (d : Directory ν β) (old new : ν) : Option (Directory ν β) :=
  (d.read old).map fun contents => (d.remove old).write new contents

theorem mem_names {d : Directory ν β} {name : ν} : name ∈ d.names ↔ ∃ contents, d.read name = some contents := by
  rw [← Option.isSome_iff_exists]
  exact AList.mem_keys.symm.trans AList.lookup_isSome.symm

@[simp] theorem read_empty (name : ν) : (∅ : Directory ν β).read name = none := AList.lookup_empty name

@[simp] theorem read_write (d : Directory ν β) (name x : ν) (contents : β) :
    (d.write name contents).read x = if x = name then some contents else d.read x := by
  split_ifs with same
  · subst same; exact AList.lookup_insert d
  · exact AList.lookup_insert_ne same

theorem names_write {d : Directory ν β} {name : ν} (absent : name ∉ d.names) (contents : β) :
    (d.write name contents).names = name :: d.names := by
  rw [names, write, AList.keys_insert]
  exact congrArg (name :: ·) (List.erase_of_not_mem absent)

@[simp] theorem read_remove (d : Directory ν β) (name x : ν) :
    (d.remove name).read x = if x = name then none else d.read x := by
  split_ifs with same
  · subst same; exact AList.lookup_erase _ d
  · exact AList.lookup_erase_ne same

theorem mem_names_remove {d : Directory ν β} {name x : ν} : x ∈ (d.remove name).names ↔ x ≠ name ∧ x ∈ d.names := by
  rw [mem_names, mem_names, read_remove]
  by_cases same : x = name
  · simp [same]
  · simp [same]

theorem mem_names_write {d : Directory ν β} {name x : ν} {contents : β} :
    x ∈ (d.write name contents).names ↔ x = name ∨ x ∈ d.names := by
  rw [mem_names, mem_names, read_write]
  by_cases same : x = name
  · simp [same]
  · simp [same]

theorem rename_eq_some {d renamed : Directory ν β} {old new : ν} (run : d.rename old new = some renamed) (x : ν) :
    renamed.read x = if x = new then d.read old else if x = old then none else d.read x := by
  obtain ⟨contents, found, rfl⟩ := Option.map_eq_some_iff.mp run
  rw [read_write, read_remove, found]

theorem rename_exists {d : Directory ν β} {old : ν} {contents : β} (found : d.read old = some contents)
    (new : ν) : ∃ renamed, d.rename old new = some renamed :=
  ⟨_, by rw [rename, found]; rfl⟩

/-- Remove files one after the other. -/
def removeNames (d : Directory ν β) (gone : List ν) : Directory ν β := gone.foldl remove d

theorem read_removeNames (d : Directory ν β) (gone : List ν) (x : ν) :
    (d.removeNames gone).read x = if x ∈ gone then none else d.read x := by
  induction gone generalizing d with
  | nil => simp [removeNames]
  | cons name gone ih =>
    have step : (d.removeNames (name :: gone)).read x = _ := ih (d.remove name)
    rw [step, read_remove]
    by_cases same : x = name
    · simp [same]
    · simp [same]

end Directory
