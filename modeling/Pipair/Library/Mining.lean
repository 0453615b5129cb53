import Mathlib.Algebra.Order.Field.Rat
import Mathlib.Data.Finset.Card
import Mathlib.Tactic.Positivity
import Mathlib.Tactic.NormNum

/-!
# Mining pair rules by support and confidence

Items occur at places. The *support* of an item, or of a pair of items, is the
number of places it occurs at; the *confidence* of a pair for one of its items
is the share of the item's places that have the pair. A pair that is frequent
but not universal is a rule, and a place that has the item without the pair
violates it.

A `Database` records places of items and of unordered pairs, an
`OrderedDatabase` places of items and of ordered pairs. The last section relates
an ordered database to one that forgets the order (`OrderedDatabase.Forgets`):
which violations of the one are violations of the other.
-/

universe u v

namespace Mining

variable {α : Type u} {γ : Type v}

/-- Share of the places of an item that have the pair. -/
def confidence (pair single : Finset γ) : ℚ := (pair.card : ℚ) / (single.card : ℚ)

/-- The pair is a rule for the item: both are frequent, and the pair occurs at
enough places of the item but not at all of them. -/
structure Qualifies (s : ℤ) (t : ℚ) (single pair : Finset γ) : Prop where
  support_single : s ≤ single.card
  support_pair : s ≤ pair.card
  confidence_lt : confidence pair single < 1
  confidence_ge : t ≤ confidence pair single

instance (s : ℤ) (t : ℚ) (single pair : Finset γ) : Decidable (Qualifies s t single pair) :=
  decidable_of_iff
    (s ≤ single.card ∧ s ≤ pair.card ∧ confidence pair single < 1 ∧ t ≤ confidence pair single)
    ⟨fun ⟨h1, h2, h3, h4⟩ => ⟨h1, h2, h3, h4⟩, fun ⟨h1, h2, h3, h4⟩ => ⟨h1, h2, h3, h4⟩⟩

theorem confidence_mono {p q single : Finset γ} (h : p ⊆ q) :
    confidence p single ≤ confidence q single := by
  unfold confidence
  have hcard : (p.card : ℚ) ≤ q.card := by exact_mod_cast Finset.card_le_card h
  exact div_le_div_of_nonneg_right hcard (by positivity)

/-- A pair that misses a place of the item has confidence below one. -/
theorem confidence_lt_one {pair single : Finset γ} (hsub : pair ⊆ single) {c : γ}
    (hc : c ∈ single) (hn : c ∉ pair) : confidence pair single < 1 := by
  -- the place left out makes the pair rarer than the item
  have hss : pair ⊂ single := ⟨hsub, fun h => hn (h hc)⟩
  have hcard := Finset.card_lt_card hss
  have hpos : (0 : ℚ) < single.card := by exact_mod_cast (by omega : 0 < single.card)
  rw [confidence, div_lt_one hpos]
  exact_mod_cast hcard

/-- A rule stays a rule when its pair is enlarged, as long as a place of the
item is left out. -/
theorem Qualifies.mono {s : ℤ} {t : ℚ} {single p q : Finset γ} (h : Qualifies s t single p)
    (hpq : p ⊆ q) (hq : q ⊆ single) {c : γ} (hc : c ∈ single) (hn : c ∉ q) :
    Qualifies s t single q where
  support_single := h.support_single
  support_pair := by
    have := Finset.card_le_card hpq
    have := h.support_pair
    omega
  confidence_lt := confidence_lt_one hq hc hn
  confidence_ge := h.confidence_ge.trans (confidence_mono hpq)

/-- Raised thresholds cut what the old ones let through, and only that. -/
theorem qualifies_max_iff {s s' : ℤ} {t t' : ℚ} {single pair : Finset γ} (hsub : pair ⊆ single) :
    Qualifies (max s s') (max t t') single pair ↔
      Qualifies s t single pair ∧ s' ≤ pair.card ∧ t' ≤ confidence pair single := by
  have hcard := Finset.card_le_card hsub
  constructor
  · rintro ⟨-, h2, h3, h4⟩
    rw [max_le_iff] at h2 h4
    exact ⟨⟨by omega, h2.1, h3, h4.1⟩, h2.2, h4.2⟩
  · rintro ⟨⟨h1, h2, h3, h4⟩, hs, ht⟩
    exact ⟨max_le h1 (by omega), max_le h2 hs, h3, max_le h4 ht⟩

/-! ## Unordered pairs -/

/-- Where each item and each unordered pair of items occurs. -/
structure Database (α : Type u) (γ : Type v) where
  single : α → Finset γ
  pair : α → α → Finset γ
  pair_comm : ∀ a b, pair a b = pair b a
  pair_subset : ∀ a b, pair a b ⊆ single a

/-- At the place `c` the item `a` occurs without `b`, though `{a, b}` is a rule
for `a`. -/
structure Database.Violation (D : Database α γ) (s : ℤ) (t : ℚ) (a b : α) (c : γ) : Prop where
  ne : a ≠ b
  occurs : (D.pair a b).Nonempty
  qualifies : Qualifies s t (D.single a) (D.pair a b)
  mem : c ∈ D.single a
  notMem : c ∉ D.pair a b

namespace Database

/-- The places are all there is. -/
theorem ext_places {D E : Database α γ} (hs : ∀ a, D.single a = E.single a)
    (hp : ∀ a b, D.pair a b = E.pair a b) : D = E := by
  cases D
  cases E
  simp only [mk.injEq]
  exact ⟨funext hs, funext fun a => funext (hp a)⟩

theorem violation_max_iff (D : Database α γ) {s s' : ℤ} {t t' : ℚ} {a b : α} {c : γ} :
    D.Violation (max s s') (max t t') a b c ↔
      D.Violation s t a b c ∧ s' ≤ (D.pair a b).card ∧
        t' ≤ confidence (D.pair a b) (D.single a) := by
  constructor
  · rintro ⟨h1, h2, h3, h4, h5⟩
    obtain ⟨hq, hs, ht⟩ := (qualifies_max_iff (D.pair_subset a b)).mp h3
    exact ⟨⟨h1, h2, hq, h4, h5⟩, hs, ht⟩
  · rintro ⟨⟨h1, h2, h3, h4, h5⟩, hs, ht⟩
    exact ⟨h1, h2, (qualifies_max_iff (D.pair_subset a b)).mpr ⟨h3, hs, ht⟩, h4, h5⟩

variable [DecidableEq γ]

/-- Every place of a set has the items that the relation gives it. -/
def ofRelation (places : Finset γ) (R : γ → α → Prop) [∀ c a, Decidable (R c a)] :
    Database α γ where
  single a := places.filter fun c => R c a
  pair a b := places.filter fun c => R c a ∧ R c b
  pair_comm a b := Finset.filter_congr fun _ _ => and_comm
  pair_subset a b c hc := by
    rw [Finset.mem_filter] at hc ⊢
    exact ⟨hc.1, hc.2.1⟩

/-- The places of two databases. -/
def union (D E : Database α γ) : Database α γ where
  single a := D.single a ∪ E.single a
  pair a b := D.pair a b ∪ E.pair a b
  pair_comm a b := by rw [D.pair_comm, E.pair_comm]
  pair_subset a b := Finset.union_subset_union (D.pair_subset a b) (E.pair_subset a b)

end Database

/-! ## Ordered pairs -/

/-- Where each item and each ordered pair of items occurs. -/
structure OrderedDatabase (α : Type u) (γ : Type v) where
  single : α → Finset γ
  pair : α → α → Finset γ
  pair_subset_left : ∀ x y, pair x y ⊆ single x
  pair_subset_right : ∀ x y, pair x y ⊆ single y

namespace OrderedDatabase

variable (D : OrderedDatabase α γ) (s : ℤ) (t : ℚ)

/-- The ordered pair `(x, y)` occurs and is a rule for its item `a`. -/
structure Rule (a x y : α) : Prop where
  member : a = x ∨ a = y
  occurs : (D.pair x y).Nonempty
  qualifies : Qualifies s t (D.single a) (D.pair x y)

/-- At the place `c` the item `a` occurs without `(x, y)`, a rule for `a`. -/
structure Violation (a x y : α) (c : γ) : Prop where
  rule : D.Rule s t a x y
  mem : c ∈ D.single a
  notMem : c ∉ D.pair x y

/-- Both orders of two items are violated at `c`. -/
structure BothViolated (a x y : α) (c : γ) : Prop where
  ne : x ≠ y
  forth : D.Violation s t a x y c
  back : D.Violation s t a y x c

variable {D s t} [DecidableEq α] [DecidableEq γ]

instance (a x y : α) : Decidable (D.Rule s t a x y) :=
  decidable_of_iff
    ((a = x ∨ a = y) ∧ (D.pair x y).Nonempty ∧ Qualifies s t (D.single a) (D.pair x y))
    ⟨fun ⟨h1, h2, h3⟩ => ⟨h1, h2, h3⟩, fun ⟨h1, h2, h3⟩ => ⟨h1, h2, h3⟩⟩

instance (a x y : α) (c : γ) : Decidable (D.Violation s t a x y c) :=
  decidable_of_iff (D.Rule s t a x y ∧ c ∈ D.single a ∧ c ∉ D.pair x y)
    ⟨fun ⟨h1, h2, h3⟩ => ⟨h1, h2, h3⟩, fun ⟨h1, h2, h3⟩ => ⟨h1, h2, h3⟩⟩

instance (a x y : α) (c : γ) : Decidable (D.BothViolated s t a x y c) :=
  decidable_of_iff (x ≠ y ∧ D.Violation s t a x y c ∧ D.Violation s t a y x c)
    ⟨fun ⟨h1, h2, h3⟩ => ⟨h1, h2, h3⟩, fun ⟨h1, h2, h3⟩ => ⟨h1, h2, h3⟩⟩

omit [DecidableEq α] [DecidableEq γ]

theorem violation_max_iff {s' : ℤ} {t' : ℚ} {a x y : α} {c : γ} :
    D.Violation (max s s') (max t t') a x y c ↔
      D.Violation s t a x y c ∧ s' ≤ (D.pair x y).card ∧
        t' ≤ confidence (D.pair x y) (D.single a) := by
  -- a rule is for one of the functions of its pair
  have hsub : a = x ∨ a = y → D.pair x y ⊆ D.single a := by
    rintro (rfl | rfl)
    · exact D.pair_subset_left ..
    · exact D.pair_subset_right ..
  constructor
  · rintro ⟨⟨h1, h2, h3⟩, h4, h5⟩
    obtain ⟨hq, hs, ht⟩ := (qualifies_max_iff (hsub h1)).mp h3
    exact ⟨⟨⟨h1, h2, hq⟩, h4, h5⟩, hs, ht⟩
  · rintro ⟨⟨⟨h1, h2, h3⟩, h4, h5⟩, hs, ht⟩
    exact ⟨⟨h1, h2, (qualifies_max_iff (hsub h1)).mpr ⟨h3, hs, ht⟩⟩, h4, h5⟩

theorem BothViolated.symm {a x y : α} {c : γ} (h : D.BothViolated s t a x y c) :
    D.BothViolated s t a y x c :=
  ⟨h.ne.symm, h.back, h.forth⟩

/-! ## Forgetting the order -/

/-- `E` is `D` with the order of the pairs forgotten. -/
structure Forgets [DecidableEq γ] (D : OrderedDatabase α γ) (E : Database α γ) : Prop where
  single : ∀ a, E.single a = D.single a
  pair : ∀ x y, x ≠ y → E.pair x y = D.pair x y ∪ D.pair y x

namespace Forgets

variable [DecidableEq γ] {E : Database α γ} {a b x y : α} {c : γ}

/-- The places of one order are places of the pair. -/
theorem subset (h : D.Forgets E) (hab : a ≠ b) (hxy : (x = a ∧ y = b) ∨ (x = b ∧ y = a)) :
    D.pair x y ⊆ E.pair a b := by
  rw [h.pair a b hab]
  rcases hxy with ⟨rfl, rfl⟩ | ⟨rfl, rfl⟩
  · exact Finset.subset_union_left
  · exact Finset.subset_union_right

/-- The places of the pair are those of the two orders. -/
theorem notMem_iff (h : D.Forgets E) (hab : a ≠ b)
    (hxy : (x = a ∧ y = b) ∨ (x = b ∧ y = a)) :
    c ∉ E.pair a b ↔ c ∉ D.pair x y ∧ c ∉ D.pair y x := by
  rw [h.pair a b hab, Finset.mem_union, not_or]
  rcases hxy with ⟨rfl, rfl⟩ | ⟨rfl, rfl⟩
  · rfl
  · exact and_comm

/-- **From an order to the pair.** A violation of one order at a place without the
other is a violation of the pair. -/
theorem violation (h : D.Forgets E) (hab : a ≠ b) (hxy : (x = a ∧ y = b) ∨ (x = b ∧ y = a))
    (hv : D.Violation s t a x y c) (hn : c ∉ D.pair y x) : E.Violation s t a b c where
  ne := hab
  occurs := hv.rule.occurs.mono (h.subset hab hxy)
  qualifies := by
    have hnot := (h.notMem_iff hab hxy).mpr ⟨hv.notMem, hn⟩
    have hq := hv.rule.qualifies
    rw [← h.single] at hq
    exact hq.mono (h.subset hab hxy) (E.pair_subset a b) (h.single a ▸ hv.mem) hnot
  mem := h.single a ▸ hv.mem
  notMem := (h.notMem_iff hab hxy).mpr ⟨hv.notMem, hn⟩

/-- **From the pair to an order.** A violation of the pair is a violation of an
order that occurs and meets the thresholds. -/
theorem ordered (h : D.Forgets E) (hxy : (x = a ∧ y = b) ∨ (x = b ∧ y = a))
    (hv : E.Violation s t a b c) (hocc : (D.pair x y).Nonempty) (hs : s ≤ (D.single a).card)
    (hp : s ≤ (D.pair x y).card) (ht : t ≤ confidence (D.pair x y) (D.single a)) :
    D.Violation s t a x y c := by
  have hmember : a = x ∨ a = y := hxy.imp (fun h => h.1.symm) fun h => h.2.symm
  have hsub : D.pair x y ⊆ D.single a := by
    rcases hmember with rfl | rfl
    · exact D.pair_subset_left ..
    · exact D.pair_subset_right ..
  have hmem : c ∈ D.single a := h.single a ▸ hv.mem
  have hnot := ((h.notMem_iff hv.ne hxy).mp hv.notMem).1
  exact ⟨⟨hmember, hocc, hs, hp, confidence_lt_one hsub hmem hnot, ht⟩, hmem, hnot⟩

end Forgets

end OrderedDatabase

end Mining
