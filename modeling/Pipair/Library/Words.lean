import Mathlib.Data.List.Basic

/-!
# Texts made of words

A text that is put together from words with a separator between them can be taken apart
again, as long as no word contains the separator (`intercalate_inj`). Numbers make such
words: their digits are digits (`isDigit_of_mem_toString`), and no two numbers have the
same ones (`toString_nat_inj`).

What is known about single items carries over to lists of them, compared up to their
order (`perm_map_iff`).
-/

/-- Parts without the separator can be found in the text put together from them. -/
theorem intercalate_inj {α : Type*} [DecidableEq α] {d : α} {ls ms : List (List α)}
    (hls : ∀ w ∈ ls, d ∉ w) (hms : ∀ w ∈ ms, d ∉ w) (hls0 : ls ≠ []) (hms0 : ms ≠ [])
    (h : [d].intercalate ls = [d].intercalate ms) : ls = ms := by
  rw [← List.splitOn_intercalate d hls hls0, h, List.splitOn_intercalate d hms hms0]

/-! ## Numbers -/

section Numbers

variable {n m : Nat}

theorem toString_nat_inj (h : (toString n).toList = (toString m).toList) : n = m := by
  rw [Nat.toString_eq_repr, Nat.toString_eq_repr, Nat.toList_repr, Nat.toList_repr] at h
  rw [← Nat.ofDigitChars_ten_toDigits (n := n), h, Nat.ofDigitChars_ten_toDigits]

/-- The digits of a number are digits. -/
theorem isDigit_of_mem_toString {c : Char} (h : c ∈ (toString n).toList) : c.isDigit = true := by
  rw [Nat.toString_eq_repr, Nat.toList_repr] at h
  exact Nat.isDigit_of_mem_toDigits (by omega) (Nat.le_refl _) h

end Numbers

/-! ## Lists up to their order -/

/-- Two lists agree under one map when they agree under another that tells the same items
apart. -/
theorem perm_map_of_forall {α β γ : Type*} {f : α → β} {g : α → γ} {l m : List α}
    (h : ∀ x ∈ l ++ m, ∀ y ∈ l ++ m, f x = f y → g x = g y)
    (hperm : (l.map f).Perm (m.map f)) : (l.map g).Perm (m.map g) := by
  rcases List.eq_nil_or_concat (l ++ m) with hnil | ⟨-, z, -⟩
  · obtain ⟨rfl, rfl⟩ := List.append_eq_nil_iff.mp hnil
    exact .nil
  -- what `g` gives can be computed from what `f` gives
  obtain ⟨φ, hφ⟩ : ∃ φ : β → γ, ∀ x ∈ l ++ m, φ (f x) = g x := by
    classical
    refine ⟨fun b => if hb : ∃ x ∈ l ++ m, f x = b then g hb.choose else g z, fun x hx => ?_⟩
    have hb : ∃ y ∈ l ++ m, f y = f x := ⟨x, hx, rfl⟩
    refine (dif_pos hb).trans ?_
    exact h _ hb.choose_spec.1 _ hx hb.choose_spec.2
  have hmap : ∀ k, k ⊆ l ++ m → k.map g = (k.map f).map φ := by
    intro k hk
    rw [List.map_map]
    exact List.map_congr_left fun x hx => (hφ x (hk hx)).symm
  rw [hmap l (List.subset_append_left ..), hmap m (List.subset_append_right ..)]
  exact hperm.map φ

/-- Two maps that tell the same items apart compare the same lists. -/
theorem perm_map_iff {α β γ : Type*} {f : α → β} {g : α → γ} {l m : List α}
    (h : ∀ x ∈ l ++ m, ∀ y ∈ l ++ m, f x = f y ↔ g x = g y) :
    (l.map f).Perm (m.map f) ↔ (l.map g).Perm (m.map g) :=
  ⟨perm_map_of_forall fun x hx y hy => (h x hx y hy).mp,
    perm_map_of_forall fun x hx y hy => (h x hx y hy).mpr⟩
