import Pipair.PartA
import Pipair.PartD.Printed

/-!
# Part D against part A

Part A looks for pairs called together, part D for pairs called in order. The
callers of a pair are the callers of its two orders (`orderedDatabase_forgets`),
so a line of one program mostly has a counterpart among the lines of the other:

* a line of part D for two functions either reports that they are called in the
  wrong order, or belongs to a line of part A (`exists_partA`);
* a line of part A has one counterpart in part D when one of the two orders meets
  the thresholds by itself, and none otherwise (`violation_iff_meets`,
  `Reports.count_about`).

`counterparts` puts the two together.
-/

namespace Pipair.PartD

open Mining

-- ---------------------------------------------------------------------------
-- Lines about the same bug
-- ---------------------------------------------------------------------------

/-- The line is about the function `a`, the caller `c` and the pair `{x, y}`. -/
def BugLine.About (a c x y : String) : BugLine → Prop
  | .single function caller r => function = a ∧ caller = c ∧
      ((r.pair = (x, y)) ∨ r.pair = (y, x))
  | .combined function caller r _ => function = a ∧ caller = c ∧
      ((r.pair = (x, y)) ∨ r.pair = (y, x))

instance (a c x y : String) : DecidablePred (BugLine.About a c x y)
  | .single .. => inferInstanceAs (Decidable (_ ∧ _ ∧ (_ ∨ _)))
  | .combined .. => inferInstanceAs (Decidable (_ ∧ _ ∧ (_ ∨ _)))

/-- The ordered pair `(x, y)` occurs and meets the thresholds for `a`. -/
def Meets (bs : List Block) (s : Int) (t : ℚ) (a x y : String) : Prop :=
  (callersInOrder bs x y).Nonempty ∧ s ≤ (callersOf bs a).card ∧
    s ≤ (callersInOrder bs x y).card ∧
    t ≤ ((callersInOrder bs x y).card : ℚ) / (callersOf bs a).card

instance (bs : List Block) (s : Int) (t : ℚ) (a x y : String) : Decidable (Meets bs s t a x y) :=
  inferInstanceAs (Decidable (_ ∧ _ ∧ _ ∧ _))

section Lines

variable {bs : List Block} {s : Int} {t : ℚ} {a b c x y : String}
  {D : OrderedDatabase String String}

theorem about_singleLine {a' c' x' y' : String} :
    (singleLine D a' x' y' c').About a c x y ↔
      a' = a ∧ c' = c ∧ ((x' = x ∧ y' = y) ∨ (x' = y ∧ y' = x)) := by
  simp [singleLine, reported, BugLine.About]

theorem about_combinedLine {a' c' x' y' : String} :
    (combinedLine D a' x' y' c').About a c x y ↔
      a' = a ∧ c' = c ∧ ((x' = x ∧ y' = y) ∨ (x' = y ∧ y' = x)) := by
  simp [combinedLine, reported, BugLine.About]

theorem about_comm {line : BugLine} : line.About a c x y ↔ line.About a c y x := by
  cases line <;> simp only [BugLine.About, or_comm]

/-- Near a violation of the pair, an order is violated when it meets the
thresholds. -/
theorem violation_iff_meets (hviol : (siteDatabase bs).Violation s t a b c)
    (hxy : (x = a ∧ y = b) ∨ (x = b ∧ y = a)) :
    (orderedDatabase bs).Violation s t a x y c ↔ Meets bs s t a x y := by
  constructor
  · intro h
    have hq := h.rule.qualifies
    exact ⟨h.rule.occurs, hq.support_single, hq.support_pair, hq.confidence_ge⟩
  · intro h
    obtain ⟨hocc, hs, hp, ht⟩ := h
    exact (orderedDatabase_forgets bs).ordered hxy hviol hocc hs hp ht

end Lines

/-- The only element of a duplicate-free list with a property. -/
theorem length_filter_eq_one {α : Type*} {l : List α} {p : α → Prop} [DecidablePred p]
    (hnd : l.Nodup) {z : α} (hz : z ∈ l) (hp : p z) (huniq : ∀ x ∈ l, p x → x = z) :
    (l.filter (p ·)).length = 1 := by
  have hperm : (l.filter (p ·)).Perm [z] := by
    rw [List.perm_ext_iff_of_nodup (hnd.filter _) (List.nodup_singleton z)]
    intro x
    rw [List.mem_filter, decide_eq_true_eq, List.mem_singleton]
    constructor
    · exact fun h => huniq x h.1 h.2
    · rintro rfl
      exact ⟨hz, hp⟩
  exact hperm.length_eq

namespace Reports

variable {bs : List Block} {s : Int} {t : ℚ} {a b c x y : String} {out : List BugLine}

/-- A line about `a`, `c` and `{x, y}` is the combined line of one of the orders
when both are violated, and otherwise the single line of a violated one. -/
theorem about_cases {D : OrderedDatabase String String} (h : Reports D s t out) {line : BugLine}
    (hline : line ∈ out) (habout : line.About a c x y) :
    ∃ x' y', ((x' = x ∧ y' = y) ∨ (x' = y ∧ y' = x)) ∧ D.Violation s t a x' y' c ∧
      ((¬ D.BothViolated s t a x' y' c ∧ line = singleLine D a x' y' c) ∨
        (D.BothViolated s t a x' y' c ∧ line = combinedLine D a x' y' c)) := by
  obtain ⟨a', x', y', c', hviol, hcase⟩ := h.only line hline
  have hsame : a' = a ∧ c' = c ∧ ((x' = x ∧ y' = y) ∨ (x' = y ∧ y' = x)) := by
    rcases hcase with ⟨-, rfl⟩ | ⟨-, rfl⟩
    · exact about_singleLine.mp habout
    · exact about_combinedLine.mp habout
  obtain ⟨rfl, rfl, hxy⟩ := hsame
  exact ⟨x', y', hxy, hviol, hcase⟩

/-- Both orders are violated: one line reports them. -/
theorem count_both {D : OrderedDatabase String String} (h : Reports D s t out)
    (hboth : D.BothViolated s t a x y c) (hin : combinedLine D a x y c ∈ out) :
    (out.filter (BugLine.About a c x y ·)).length = 1 := by
  refine length_filter_eq_one h.nodup hin (about_combinedLine.mpr ⟨rfl, rfl, Or.inl ⟨rfl, rfl⟩⟩) ?_
  intro line hline habout
  obtain ⟨x', y', ⟨rfl, rfl⟩ | ⟨rfl, rfl⟩, -, ⟨hn, -⟩ | ⟨-, rfl⟩⟩ := h.about_cases hline habout
  · exact absurd hboth hn
  · rfl
  · exact absurd hboth.symm hn
  · exact absurd hline ((h.combined a y' x' c hboth).mp hin)

/-- Only one order is violated: its single line reports it. -/
theorem count_single {D : OrderedDatabase String String} (h : Reports D s t out) (hxy : x ≠ y)
    (hforth : D.Violation s t a x y c) (hback : ¬ D.Violation s t a y x c) :
    (out.filter (BugLine.About a c x y ·)).length = 1 := by
  have hn : ¬ D.BothViolated s t a x y c := fun hboth => hback hboth.back
  refine length_filter_eq_one h.nodup (h.single a x y c hforth hn)
    (about_singleLine.mpr ⟨rfl, rfl, Or.inl ⟨rfl, rfl⟩⟩) ?_
  intro line hline habout
  obtain ⟨x', y', ⟨rfl, rfl⟩ | ⟨rfl, rfl⟩, hviol, ⟨-, rfl⟩ | ⟨hboth, -⟩⟩ :=
    h.about_cases hline habout
  · rfl
  · exact absurd hboth hn
  · exact absurd hviol hback
  · exact absurd hviol hback

/-- **How many lines** are about the two orders of a pair: one when one of them is
violated. -/
theorem count_about {D : OrderedDatabase String String} (h : Reports D s t out) (hxy : x ≠ y) :
    (out.filter (BugLine.About a c x y ·)).length =
      if D.Violation s t a x y c ∨ D.Violation s t a y x c then 1 else 0 := by
  have hcomm : out.filter (BugLine.About a c x y ·) = out.filter (BugLine.About a c y x ·) :=
    List.filter_congr fun line _ => decide_eq_decide.mpr about_comm
  by_cases hforth : D.Violation s t a x y c <;> by_cases hback : D.Violation s t a y x c
  · rw [if_pos (Or.inl hforth)]
    have hboth : D.BothViolated s t a x y c := ⟨hxy, hforth, hback⟩
    by_cases hin : combinedLine D a x y c ∈ out
    · exact h.count_both hboth hin
    · rw [hcomm]
      exact h.count_both hboth.symm ((h.combined a y x c hboth.symm).mpr hin)
  · rw [if_pos (Or.inl hforth)]
    exact h.count_single hxy hforth hback
  · rw [if_pos (Or.inr hback), hcomm]
    exact h.count_single hxy.symm hback hforth
  · rw [if_neg (not_or.mpr ⟨hforth, hback⟩), List.length_eq_zero_iff, List.filter_eq_nil_iff]
    intro line hline habout
    obtain ⟨x', y', ⟨rfl, rfl⟩ | ⟨rfl, rfl⟩, hviol, -⟩ :=
      h.about_cases hline (of_decide_eq_true habout)
    · exact hforth hviol
    · exact hback hviol

end Reports

-- ---------------------------------------------------------------------------
-- Counterparts
-- ---------------------------------------------------------------------------

/-- The line of part D is about the bug of a line of part A. -/
abbrev Counterpart (lineA : Pipair.BugLine) (line : BugLine) : Prop :=
  line.About lineA.function lineA.caller lineA.pair.1 lineA.pair.2

theorem counterpart_bugLine {D : Database String String} {a b c : String} {line : BugLine} :
    Counterpart (bugLine D a b c) line ↔ line.About a c a b := by
  rw [Counterpart]
  rcases lexicographic_cases a b with h | h
  · rw [bugLine, h]
  · rw [bugLine, h, about_comm]

section Counterparts

variable {bs : List Block} {s : Int} {t : ℚ} {ordA : Pipair.PrintOrder}
  {outA : List Pipair.BugLine} {a c x y : String}

/-- A violated order has a line of part A, unless the caller has the other order. -/
theorem exists_partA (hrunA : PartA.run ordA bs s t = .ok outA) (hxy : x ≠ y)
    (hviol : (orderedDatabase bs).Violation s t a x y c) (hn : c ∉ callersInOrder bs y x) :
    ∃ b, bugLine (siteDatabase bs) a b c ∈ outA ∧ ((x = a ∧ y = b) ∨ (x = b ∧ y = a)) := by
  -- `a` is one of the pair, its partner the other
  obtain ⟨b, hab, hb⟩ : ∃ b, a ≠ b ∧ ((x = a ∧ y = b) ∨ (x = b ∧ y = a)) := by
    rcases hviol.rule.member with rfl | rfl
    · exact ⟨y, hxy, Or.inl ⟨rfl, rfl⟩⟩
    · exact ⟨x, hxy.symm, Or.inr ⟨rfl, rfl⟩⟩
  have hv := (orderedDatabase_forgets bs).violation hab hb hviol hn
  have hline := ((PartA.run_prints ordA bs s t).mem_iff hrunA _).mpr ⟨a, b, c, hv, rfl⟩
  exact ⟨b, hline, hb⟩

end Counterparts

/--
**Part D against part A.** Let both programs run on the same blocks, with the
same thresholds and in whatever orders of their loops.

1. A single line of part D for two functions `x` and `y` reports a caller that
   calls `y` before `x` and never `x` before `y`, or part A has a line for the
   same function, caller and pair.
2. For every combined line of part D, part A has such a line.
3. A line of part A has exactly one counterpart in part D when one of the two
   orders of its pair occurs and meets the thresholds, and none otherwise.
-/
theorem counterparts (ord : PrintOrder) (ordA : Pipair.PrintOrder) (bs : List Block) (s : Int)
    (t : ℚ) (hcomma : CommaFree bs) :
    ∃ out outA, run ord bs s t = .ok out ∧ PartA.run ordA bs s t = .ok outA ∧
      (∀ a c r, BugLine.single a c r ∈ out → r.pair.1 ≠ r.pair.2 →
        (c ∈ callersInOrder bs r.pair.2 r.pair.1 ∧ c ∉ callersInOrder bs r.pair.1 r.pair.2) ∨
          ∃ lineA ∈ outA, Counterpart lineA (.single a c r)) ∧
      (∀ a c r r2, BugLine.combined a c r r2 ∈ out →
        ∃ lineA ∈ outA, Counterpart lineA (.combined a c r r2)) ∧
      ∀ lineA ∈ outA, (out.filter (Counterpart lineA ·)).length =
        if Meets bs s t lineA.function lineA.pair.1 lineA.pair.2 ∨
          Meets bs s t lineA.function lineA.pair.2 lineA.pair.1 then 1 else 0 := by
  obtain ⟨out, hrun, hreports⟩ := reports_run ord s t hcomma
  obtain ⟨outA, hrunA, -, hmemA⟩ := PartA.run_prints ordA bs s t
  refine ⟨out, outA, hrun, hrunA, ?single, ?combined, ?count⟩
  case single =>
    intro a c r hline hne
    obtain ⟨a', x, y, c', hviol, ⟨-, h⟩ | ⟨-, h⟩⟩ := hreports.only _ hline
    · obtain ⟨rfl, rfl, rfl⟩ := BugLine.single.inj h
      by_cases hback : c ∈ callersInOrder bs y x
      · exact Or.inl ⟨hback, hviol.notMem⟩
      · obtain ⟨b, hb, hxy⟩ := exists_partA hrunA hne hviol hback
        exact Or.inr ⟨_, hb, counterpart_bugLine.mpr (about_singleLine.mpr ⟨rfl, rfl, hxy⟩)⟩
    · cases h
  case combined =>
    intro a c r r2 hline
    obtain ⟨a', x, y, c', hviol, ⟨-, h⟩ | ⟨hboth, h⟩⟩ := hreports.only _ hline
    · cases h
    · obtain ⟨rfl, rfl, rfl, rfl⟩ := BugLine.combined.inj h
      obtain ⟨b, hb, hxy⟩ := exists_partA hrunA hboth.ne hviol hboth.back.notMem
      exact ⟨_, hb, counterpart_bugLine.mpr (about_combinedLine.mpr ⟨rfl, rfl, hxy⟩)⟩
  case count =>
    intro lineA hlineA
    obtain ⟨a, b, c, hviol, rfl⟩ := (hmemA lineA).mp hlineA
    -- the line of part A shows the two names in one of their orders
    obtain ⟨x, y, hlex, hxy⟩ : ∃ x y, lexicographic a b = (x, y) ∧
        ((x = a ∧ y = b) ∨ (x = b ∧ y = a)) := by
      rcases lexicographic_cases a b with h | h
      · exact ⟨a, b, h, Or.inl ⟨rfl, rfl⟩⟩
      · exact ⟨b, a, h, Or.inr ⟨rfl, rfl⟩⟩
    have hne : x ≠ y := by
      rcases hxy with ⟨rfl, rfl⟩ | ⟨rfl, rfl⟩
      · exact hviol.ne
      · exact hviol.ne.symm
    have hyx : (y = a ∧ x = b) ∨ (y = b ∧ x = a) := hxy.symm.imp And.symm And.symm
    simp only [bugLine, hlex, ← violation_iff_meets hviol hxy, ← violation_iff_meets hviol hyx]
    exact hreports.count_about hne

/-- Both orders of `A` and `B` meet the thresholds; their line is the one counterpart
of the line of part A. -/
theorem counterparts_eitherWay :
    ∃ out outA, run default eitherWay 3 (2 / 5) = .ok out ∧
      PartA.run default eitherWay 3 (2 / 5) = .ok outA ∧
      ∀ lineA ∈ outA, lineA.function = "A" → lineA.pair = ("A", "B") →
        (out.filter (Counterpart lineA ·)).length = 1 := by
  obtain ⟨out, outA, hrun, hrunA, -, -, hcount⟩ :=
    counterparts default default eitherWay 3 (2 / 5) (by decide +kernel)
  refine ⟨out, outA, hrun, hrunA, fun lineA hline hfunction hpair => ?_⟩
  rw [hcount lineA hline, hfunction, hpair]
  decide +kernel

end Pipair.PartD
