import Pipair.Library.HashMap
import Mathlib.Data.List.Count

/-!
# Counting by key

A program counts the elements of a list under a key: it looks the key up and
binds it to one, or to one more than what it was bound to. So a key is bound
exactly when an element has it, and to the number of those elements.
-/

variable {α κ : Type*} [DecidableEq κ]

/-- Count one more element with the key `k`. -/
def HashMap.countUp (m : HashMap κ Nat) (k : κ) : HashMap κ Nat :=
  match m.get k with
  | none => m.put k 1
  | some n => m.put k (n + 1)

/-- The counts of a list. -/
def tally (key : α → κ) (l : List α) : HashMap κ Nat :=
  l.foldl (fun m a => m.countUp (key a)) HashMap.empty

namespace HashMap

theorem get_countUp (m : HashMap κ Nat) (k k' : κ) :
    (m.countUp k).get k' = if k' = k then some ((m.get k).getD 0 + 1) else m.get k' := by
  unfold countUp
  split
  · next h => rw [get_put, h, Option.getD_none]
  · next n h => rw [get_put, h, Option.getD_some]

end HashMap

/-- **The count of a key**: the number of elements that have it, unless none has. -/
theorem get_tally (key : α → κ) (l : List α) (k : κ) :
    (tally key l).get k =
      if (l.countP (key · = k)) = 0 then none else some (l.countP (key · = k)) := by
  unfold tally
  -- induction from the end, as the fold counts the last element last
  induction l using List.reverseRecOn with
  | nil => rfl
  | append_singleton l a ih =>
    rw [List.foldl_append, List.foldl_cons, List.foldl_nil, HashMap.get_countUp,
      List.countP_append, List.countP_singleton]
    by_cases hk : k = key a
    · subst hk
      rw [if_pos rfl, ih, if_pos (decide_eq_true rfl), if_neg (Nat.succ_ne_zero _)]
      split
      · next h => rw [h, Option.getD_none]
      · rw [Option.getD_some]
    · have hzero : (if decide (key a = k) = true then 1 else 0) = 0 :=
        if_neg (by simpa using Ne.symm hk)
      rw [if_neg hk, ih, hzero, Nat.add_zero]

theorem get_tally_eq_some_iff {key : α → κ} {l : List α} {k : κ} {n : Nat} :
    (tally key l).get k = some n ↔ l.countP (key · = k) = n ∧ n ≠ 0 := by
  rw [get_tally]
  split
  · next h =>
    refine iff_of_false (by simp) ?_
    rintro ⟨heq, hne⟩
    exact hne (heq ▸ h)
  · next h =>
    rw [Option.some.injEq]
    exact ⟨fun heq => ⟨heq, heq ▸ h⟩, fun heq => heq.1⟩
