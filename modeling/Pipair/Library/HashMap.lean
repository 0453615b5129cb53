import Mathlib.Data.Finset.Insert
import Mathlib.Logic.Function.Basic

/-!
# Finite maps

A finite map is a partial function with the finite set of the keys it is
defined at. Lookup compares keys and returns the value as it was put, so maps
whose keys are sets compute: no value is transported along an equality of keys.
-/

universe u v

/-- A map from finitely many keys to values. -/
@[ext] structure HashMap (κ : Type u) (ν : Type v) where
  keySet : Finset κ
  get : κ → Option ν
  mem_keySet : ∀ k, k ∈ keySet ↔ (get k).isSome

namespace HashMap

variable {κ : Type u} {ν : Type v}

def empty : HashMap κ ν where
  keySet := ∅
  get _ := none
  mem_keySet k := by simp

@[simp] theorem get_empty (k : κ) : (empty : HashMap κ ν).get k = none := rfl

/-- A map is determined by what is found at the keys. -/
theorem ext_get {m m' : HashMap κ ν} (h : ∀ k, m.get k = m'.get k) : m = m' := by
  have hget : m.get = m'.get := funext h
  have hkeys : m.keySet = m'.keySet := by
    ext k
    rw [m.mem_keySet, m'.mem_keySet, hget]
  exact HashMap.ext hkeys hget

theorem exists_get_of_mem {m : HashMap κ ν} {k : κ} (h : k ∈ m.keySet) :
    ∃ v, m.get k = some v :=
  Option.isSome_iff_exists.mp ((m.mem_keySet k).mp h)

theorem mem_keySet_of_get {m : HashMap κ ν} {k : κ} {v : ν} (h : m.get k = some v) :
    k ∈ m.keySet :=
  (m.mem_keySet k).mpr (by rw [h]; rfl)

theorem get_eq_none {m : HashMap κ ν} {k : κ} (h : k ∉ m.keySet) : m.get k = none := by
  rwa [m.mem_keySet, Option.not_isSome_iff_eq_none] at h

variable [DecidableEq κ]

/-- Bind `k` to `v`, in place of what it was bound to. -/
def put (m : HashMap κ ν) (k : κ) (v : ν) : HashMap κ ν where
  keySet := insert k m.keySet
  get k' := if k' = k then some v else m.get k'
  mem_keySet k' := by
    rw [Finset.mem_insert, m.mem_keySet]
    split
    · next h => simp [h]
    · next h => simp [h]

theorem get_put (m : HashMap κ ν) (k k' : κ) (v : ν) :
    (m.put k v).get k' = if k' = k then some v else m.get k' := rfl

@[simp] theorem get_put_self (m : HashMap κ ν) (k : κ) (v : ν) :
    (m.put k v).get k = some v := if_pos rfl

/-! ## Filling a map -/

/-- A loop that binds every key of a list to its value. -/
theorem get_foldl_put (f : κ → ν) (l : List κ) (m : HashMap κ ν) (k : κ) :
    (l.foldl (fun m k => m.put k (f k)) m).get k = if k ∈ l then some (f k) else m.get k := by
  induction l generalizing m with
  | nil => simp
  | cons a l ih =>
    rw [List.foldl_cons, ih, get_put]
    by_cases hl : k ∈ l
    · simp [hl]
    · by_cases ha : k = a
      · simp [ha]
      · simp [hl, ha]

end HashMap
