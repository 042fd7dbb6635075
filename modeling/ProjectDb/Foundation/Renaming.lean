import ProjectDb.Foundation.Directory
import Mathlib.Data.List.Forall2

/-! Two levels of one state: a computation on the one does what another does on
the other, and a directory is the same up to the spelling of its names. -/

/-- Both return related values, or both throw the same exception; the states are related. -/
inductive EStateM.Result.Matches {ε σ τ α β : Type} (R : σ → τ → Prop) (V : α → β → Prop) :
    EStateM.Result ε σ α → EStateM.Result ε τ β → Prop
  | ok {a : α} {b : β} {s : σ} {t : τ} (values : V a b) (states : R s t) : Matches R V (.ok a s) (.ok b t)
  | error (e : ε) {s : σ} {t : τ} (states : R s t) : Matches R V (.error e s) (.error e t)

theorem EStateM.Result.Matches.of_ok {ε σ τ α β : Type} {R : σ → τ → Prop} {V : α → β → Prop} {a : α} {s : σ}
    {other : EStateM.Result ε τ β} (both : (EStateM.Result.ok a s).Matches R V other) :
    ∃ b t, other = .ok b t ∧ V a b ∧ R s t := by
  cases both with
  | ok values states => exact ⟨_, _, rfl, values, states⟩

theorem EStateM.Result.Matches.of_error {ε σ τ α β : Type} {R : σ → τ → Prop} {V : α → β → Prop} {e : ε} {s : σ}
    {other : EStateM.Result ε τ β} (both : (EStateM.Result.error e s).Matches R V other) :
    ∃ t, other = .error e t ∧ R s t := by
  cases both with
  | error _ states => exact ⟨_, rfl, states⟩

theorem EStateM.Result.Matches.weaken {ε σ τ α β : Type} {R S : σ → τ → Prop} {V : α → β → Prop}
    {result : EStateM.Result ε σ α} {other : EStateM.Result ε τ β} (both : result.Matches R V other)
    (implies : ∀ s t, R s t → S s t) : result.Matches S V other := by
  cases both with
  | ok values states => exact .ok values (implies _ _ states)
  | error e states => exact .error e (implies _ _ states)

/-- From related states the two computations end alike. -/
def EStateM.Simulates {ε σ τ α β : Type} (R : σ → τ → Prop) (V : α → β → Prop) (f : EStateM ε σ α)
    (g : EStateM ε τ β) : Prop :=
  ∀ s t, R s t → (f s).Matches R V (g t)

namespace EStateM.Simulates
variable {ε σ τ α β γ δ ι : Type} {R : σ → τ → Prop} {V : α → β → Prop} {W : γ → δ → Prop}

protected theorem pure {a : α} {b : β} (values : V a b) :
    Simulates R V (pure a : EStateM ε σ α) (pure b : EStateM ε τ β) := fun _ _ states => .ok values states

protected theorem bind {f : EStateM ε σ α} {g : EStateM ε τ β} {k : α → EStateM ε σ γ} {l : β → EStateM ε τ δ}
    (first : Simulates R V f g) (rest : ∀ a b, V a b → Simulates R W (k a) (l b)) : Simulates R W (f >>= k) (g >>= l) := by
  intro s t states
  have now := first s t states
  simp only [bind, EStateM.bind]
  cases run : f s with
  | ok a s' =>
    rw [run] at now
    generalize g t = other at now ⊢
    cases now with
    | ok values states => exact rest _ _ values _ _ states
  | error e s' =>
    rw [run] at now
    generalize g t = other at now ⊢
    cases now with
    | error _ states => exact .error e states

/-- One after the other, over a list. -/
protected theorem mapM {f : ι → EStateM ε σ α} {g : ι → EStateM ε τ β} (each : ∀ i, Simulates R V (f i) (g i))
    (is : List ι) :
    Simulates R (List.Forall₂ V) (is.mapM f) (is.mapM g) := by
  induction is with
  | nil => exact .pure .nil
  | cons i is ih =>
    rw [List.mapM_cons, List.mapM_cons]
    exact (each i).bind fun a b values => ih.bind fun as bs more => .pure (.cons values more)

end EStateM.Simulates

namespace Directory
variable {ν μ β : Type} [DecidableEq ν] [DecidableEq μ] {text : ν → μ} {d : Directory ν β} {e : Directory μ β}

/-- The directory holds the files of another one, with their names spelt out. -/
def Spells (text : ν → μ) (d : Directory ν β) (e : Directory μ β) : Prop :=
  ∀ m contents, e.read m = some contents ↔ ∃ n, m = text n ∧ d.read n = some contents

theorem Spells.empty (text : ν → μ) : Spells text (∅ : Directory ν β) ∅ := by simp [Spells]

variable (injective : Function.Injective text) (spells : Spells text d e)
include injective spells

theorem Spells.read (n : ν) : e.read (text n) = d.read n := by
  refine Option.ext fun contents => (spells (text n) contents).trans ?_
  constructor
  · rintro ⟨other, same, found⟩
    rwa [injective same]
  · exact fun found => ⟨n, rfl, found⟩

theorem Spells.write (n : ν) (contents : β) : Spells text (d.write n contents) (e.write (text n) contents) := by
  intro m other
  rw [read_write]
  by_cases same : m = text n
  · subst same
    rw [if_pos rfl]
    constructor
    · exact fun found => ⟨n, rfl, by rwa [read_write, if_pos rfl]⟩
    · rintro ⟨n', equal, found⟩
      rwa [← injective equal, read_write, if_pos rfl] at found
  · rw [if_neg same, spells]
    refine exists_congr fun n' => and_congr_right ?_
    rintro rfl
    rw [read_write, if_neg fun equal => same (congrArg text equal)]

theorem Spells.remove (n : ν) : Spells text (d.remove n) (e.remove (text n)) := by
  intro m other
  rw [read_remove]
  by_cases same : m = text n
  · subst same
    rw [if_pos rfl]
    refine iff_of_false (by simp) ?_
    rintro ⟨n', equal, found⟩
    rw [← injective equal, read_remove, if_pos rfl] at found
    cases found
  · rw [if_neg same, spells]
    refine exists_congr fun n' => and_congr_right ?_
    rintro rfl
    rw [read_remove, if_neg fun equal => same (congrArg text equal)]

/-- Renaming succeeds on both or on neither. -/
theorem Spells.rename (old new : ν) :
    (∃ d' e', d.rename old new = some d' ∧ e.rename (text old) (text new) = some e' ∧ Spells text d' e') ∨
      d.rename old new = none ∧ e.rename (text old) (text new) = none := by
  unfold Directory.rename
  rw [spells.read injective]
  cases found : d.read old with
  | none => exact Or.inr ⟨rfl, rfl⟩
  | some contents => exact Or.inl ⟨_, _, rfl, rfl, (spells.remove injective old).write injective new contents⟩

theorem Spells.names : e.names.Perm (d.names.map text) := by
  refine (List.perm_ext_iff_of_nodup e.names_nodup (d.names_nodup.map injective)).mpr fun m => ?_
  rw [mem_names, List.mem_map]
  constructor
  · rintro ⟨contents, found⟩
    obtain ⟨n, rfl, read⟩ := (spells m contents).mp found
    exact ⟨n, mem_names.mpr ⟨contents, read⟩, rfl⟩
  · rintro ⟨n, member, rfl⟩
    rw [spells.read injective]
    exact mem_names.mp member

theorem Spells.filter {p : μ → Bool} {q : ν → Bool} (same : ∀ n, p (text n) = q n) :
    (e.names.filter p).Perm ((d.names.filter q).map text) := by
  refine ((spells.names injective).filter p).trans (List.Perm.of_eq ?_)
  rw [List.filter_map]
  exact congrArg _ (List.filter_congr fun n _ => same n)

theorem Spells.removeNames {gone : List ν} {texts : List μ} (same : texts.Perm (gone.map text)) :
    Spells text (d.removeNames gone) (e.removeNames texts) := by
  intro m contents
  rw [read_removeNames]
  split_ifs with removed
  · refine iff_of_false (by simp) ?_
    rintro ⟨n, rfl, found⟩
    obtain ⟨n', member, equal⟩ := List.mem_map.mp (same.mem_iff.mp removed)
    rw [read_removeNames, if_pos (injective equal ▸ member)] at found
    cases found
  · rw [spells]
    refine exists_congr fun n => and_congr_right ?_
    rintro rfl
    rw [read_removeNames, if_neg fun member => removed (same.mem_iff.mpr (List.mem_map_of_mem member))]

end Directory
