import Mathlib.Logic.Relation
import Mathlib.Data.Finset.Card
import Mathlib.Data.Set.Basic

/-!
# Walks of a given length

`Walk R k a b`: there is a chain of exactly `k` steps of the relation `R` from
`a` to `b`. Steps may repeat; a walk may go round a cycle any number of times.

Walks longer than the number of elements from which there is a step do so: there are walks of
every length then (`exists_of_card_lt`).
-/

universe u

/-- A chain of `k` steps of `R`. -/
inductive Walk {α : Type u} (R : α → α → Prop) : Nat → α → α → Prop
  | refl (a : α) : Walk R 0 a a
  | tail {k : Nat} {a b c : α} : Walk R k a b → R b c → Walk R (k + 1) a c

namespace Walk

variable {α : Type u} {R : α → α → Prop} {k : Nat} {a b c : α}

@[simp] theorem zero_iff : Walk R 0 a b ↔ a = b := by
  constructor
  · intro h
    cases h
    rfl
  · rintro rfl
    exact .refl a

/-- A walk split at its last step. -/
theorem succ_iff : Walk R (k + 1) a c ↔ ∃ b, Walk R k a b ∧ R b c := by
  constructor
  · intro h
    cases h with
    | tail hw hs => exact ⟨_, hw, hs⟩
  · intro h
    obtain ⟨b, hw, hs⟩ := h
    exact .tail hw hs

theorem single (h : R a b) : Walk R 1 a b := .tail (.refl a) h

/-- A step in front of a walk. -/
theorem head (h : R a b) (hw : Walk R k b c) : Walk R (k + 1) a c := by
  induction hw with
  | refl => exact single h
  | tail _ hs ih => exact .tail (ih h) hs

/-- A walk split at its first step. -/
theorem succ_iff_head : Walk R (k + 1) a c ↔ ∃ b, R a b ∧ Walk R k b c := by
  constructor
  · intro h
    induction k generalizing c with
    | zero =>
      obtain ⟨b, hw, hs⟩ := succ_iff.mp h
      rw [zero_iff] at hw
      subst hw
      exact ⟨c, hs, .refl c⟩
    | succ k ih =>
      -- split off the last step, and look for the first step in what is left
      obtain ⟨d, hw, hs⟩ := succ_iff.mp h
      obtain ⟨b, hab, hbd⟩ := ih hw
      exact ⟨b, hab, .tail hbd hs⟩
  · intro h
    obtain ⟨b, hab, hw⟩ := h
    exact head hab hw

theorem append {l : Nat} (hw : Walk R k a b) (hw' : Walk R l b c) : Walk R (k + l) a c := by
  induction hw' with
  | refl => exact hw
  | tail _ hs ih => exact .tail (ih hw) hs

/-- A walk split after its first `k` steps. -/
theorem split {l : Nat} (hw : Walk R (k + l) a c) : ∃ b, Walk R k a b ∧ Walk R l b c := by
  induction l generalizing c with
  | zero => exact ⟨c, hw, .refl c⟩
  | succ l ih =>
    obtain ⟨d, hw, hs⟩ := succ_iff.mp hw
    obtain ⟨b, hab, hbd⟩ := ih hw
    exact ⟨b, hab, .tail hbd hs⟩

/-- A walk with more steps than there are elements with a step comes to one of them twice,
and can be made longer. -/
theorem exists_longer {s : Finset α} (hs : ∀ x y, R x y → x ∈ s) (hw : Walk R k a b)
    (hk : s.card < k) : ∃ k', k < k' ∧ ∃ c, Walk R k' a c := by
  have hat : ∀ i : Nat, ∃ x, i < k → x ∈ s ∧ Walk R i a x ∧ Walk R (k - i) x b := by
    intro i
    by_cases hi : i < k
    · have hlen : i + (k - i) = k := by omega
      obtain ⟨x, hx, hx'⟩ := split (hlen ▸ hw)
      obtain ⟨l, hl⟩ : ∃ l, k - i = l + 1 := ⟨k - i - 1, by omega⟩
      obtain ⟨y, hstep, -⟩ := succ_iff_head.mp (hl ▸ hx')
      exact ⟨x, fun _ => ⟨hs x y hstep, hx, hx'⟩⟩
    · exact ⟨a, fun h => absurd h hi⟩
  choose node hnode using hat
  obtain ⟨i, hi, j, hj, hij, heq⟩ := Finset.exists_ne_map_eq_of_card_lt_of_maps_to
    (s := Finset.range k) (by rwa [Finset.card_range]) fun i hi =>
      (hnode i (Finset.mem_range.mp hi)).1
  rw [Finset.mem_range] at hi hj
  -- go to it by the longer way, and on by the longer rest
  rcases Nat.lt_or_gt_of_ne hij with hlt | hlt
  · exact ⟨j + (k - i), by omega, b, (hnode j hj).2.1.append (heq ▸ (hnode i hi).2.2)⟩
  · exact ⟨i + (k - j), by omega, b, (hnode i hi).2.1.append (heq ▸ (hnode j hj).2.2)⟩

/-- **Long walks.** -/
theorem exists_of_card_lt {s : Finset α} (hs : ∀ x y, R x y → x ∈ s) (hw : Walk R k a b)
    (hk : s.card < k) (m : Nat) : ∃ c, Walk R m a c := by
  have hlong : ∀ m : Nat, ∃ k', m ≤ k' ∧ s.card < k' ∧ ∃ c, Walk R k' a c := by
    intro m
    induction m with
    | zero => exact ⟨k, Nat.zero_le k, hk, b, hw⟩
    | succ m ih =>
      obtain ⟨k', hm, hk', c, hc⟩ := ih
      obtain ⟨k'', hlt, d, hd⟩ := exists_longer hs hc hk'
      exact ⟨k'', by omega, by omega, d, hd⟩
  obtain ⟨k', hm, -, c, hc⟩ := hlong m
  obtain ⟨l, rfl⟩ := Nat.exists_eq_add_of_le hm
  obtain ⟨d, hd, -⟩ := split hc
  exact ⟨d, hd⟩

theorem reflTransGen (hw : Walk R k a b) : Relation.ReflTransGen R a b := by
  induction hw with
  | refl => exact .refl
  | tail _ hs ih => exact ih.tail hs

end Walk
