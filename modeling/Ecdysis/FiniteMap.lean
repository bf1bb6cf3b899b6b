/-
# Maps with finitely many keys

General infrastructure: a partial function that comes with a list of keys outside of which
it is undefined, so that it can be searched (`any`).  The list may hold keys that are not in
use; only the function matters.

* `insert`, `erase`, `filter` : the usual operations, with what they do to `get`.
* `any_iff` : `any p` finds a value with the property `p` if there is one.
-/
import Mathlib

/-- A partial function with a list that covers its domain. -/
structure FiniteMap (K V : Type*) where
  get : K → Option V
  keys : List K
  complete : ∀ k, (get k).isSome → k ∈ keys

namespace FiniteMap

variable {K V : Type*} [DecidableEq K] {m : FiniteMap K V} {k k' : K} {v : V} {p : V → Bool}

/-- The map without entries. -/
def empty : FiniteMap K V := ⟨fun _ => none, [], by simp⟩

/-- Enter `v` under `k`. -/
def insert (m : FiniteMap K V) (k : K) (v : V) : FiniteMap K V where
  get := Function.update m.get k (some v)
  keys := k :: m.keys
  complete := by
    intro k' h
    by_cases hk : k' = k
    · simp [hk]
    · rw [Function.update_of_ne hk] at h
      exact List.mem_cons_of_mem _ (m.complete k' h)

/-- Remove what is under `k`. -/
def erase (m : FiniteMap K V) (k : K) : FiniteMap K V where
  get := Function.update m.get k none
  keys := m.keys
  complete := by
    intro k' h
    by_cases hk : k' = k
    · simp [hk] at h
    · rw [Function.update_of_ne hk] at h
      exact m.complete k' h

omit [DecidableEq K] in
theorem isSome_of_filter {o : Option V} (h : (o.filter p).isSome) : o.isSome := by
  cases o with
  | none => simp at h
  | some v => rfl

/-- Keep the values with the property `p`. -/
def filter (m : FiniteMap K V) (p : V → Bool) : FiniteMap K V where
  get := fun k => (m.get k).filter p
  keys := m.keys
  complete := fun k h => m.complete k (isSome_of_filter h)

/-- Some value has the property `p`. -/
def any (m : FiniteMap K V) (p : V → Bool) : Bool := m.keys.any fun k => (m.get k).any p

@[simp] theorem get_insert_self : (m.insert k v).get k = some v := Function.update_self ..

@[simp] theorem get_insert_of_ne (h : k' ≠ k) : (m.insert k v).get k' = m.get k' :=
  Function.update_of_ne h ..

@[simp] theorem get_erase_self : (m.erase k).get k = none := Function.update_self ..

@[simp] theorem get_erase_of_ne (h : k' ≠ k) : (m.erase k).get k' = m.get k' :=
  Function.update_of_ne h ..

omit [DecidableEq K] in
theorem get_filter_eq_some : (m.filter p).get k = some v ↔ m.get k = some v ∧ p v = true :=
  Option.filter_eq_some_iff

omit [DecidableEq K] in
/-- **Searching a map.** -/
theorem any_iff : m.any p = true ↔ ∃ k v, m.get k = some v ∧ p v = true := by
  constructor
  · intro h
    obtain ⟨k, -, hk⟩ := List.any_eq_true.mp h
    obtain ⟨v, hv, hp⟩ := (Option.any_eq_true _ _).mp hk
    exact ⟨k, v, hv, hp⟩
  · rintro ⟨k, v, hv, hp⟩
    refine List.any_eq_true.mpr ⟨k, m.complete k (by simp [hv]), ?_⟩
    simp [hv, hp]

omit [DecidableEq K] in
theorem any_eq_false_iff : m.any p = false ↔ ∀ k v, m.get k = some v → p v = false := by
  rw [← Bool.not_eq_true, any_iff]
  push Not
  simp only [Bool.not_eq_true]

end FiniteMap
