import Pipair.PartC.ListExpand
import Pipair.PartD.Earlier
import Pipair.RoundTrip

/-!
# Raising the thresholds

What is printed under higher thresholds is a part of what is printed under lower ones:
the lines whose support and whose confidence meet the higher thresholds (`main_raised`).
This takes that the support of a function, which is not in the line, is at least that of
its pairs. The confidence that decides is the exact one of the line. The text shows it in
hundredths of a percent only, which may reach a threshold that it does not reach itself.

For part D it has to be said of the single lines (`PartD.run_raised_orders`): a pair
that no longer meets the thresholds may leave its reverse behind, in a line that was not
printed before.
-/

namespace Pipair

open Mining

/-- The second run prints the lines of the first whose pairs meet the thresholds `s'`, `t'`. -/
def Keeps (s' : Int) (t' : ℚ) (run run' : Except Fault (List BugLine)) : Prop :=
  ∃ out out', run = .ok out ∧ run' = .ok out' ∧
    out'.Perm (out.filter fun line => s' ≤ line.support ∧ t' ≤ line.confidence)

section Print

variable {suppressed : Finset String → Finset String → String → Except Fault Bool}
  {location : Location} {D : Database String String}

/-- The line of a violation says whether it is one under higher thresholds. -/
theorem keeps_of_prints {run run' : Except Fault (List BugLine)} {s s' : Int} {t t' : ℚ}
    {kept : String → String → String → Prop}
    (h : Prints run fun line => ∃ a b c, D.Violation s t a b c ∧ kept a b c ∧
      line = bugLine D a b c)
    (h' : Prints run' fun line => ∃ a b c, D.Violation (max s s') (max t t') a b c ∧ kept a b c ∧
      line = bugLine D a b c) : Keeps s' t' run run' := by
  refine h.perm_filter (h'.congr fun line => ?_)
  simp only [D.violation_max_iff, decide_eq_true_eq]
  constructor
  · intro h
    obtain ⟨a, b, c, ⟨hviol, hs, ht⟩, hkept, rfl⟩ := h
    exact ⟨⟨a, b, c, hviol, hkept, rfl⟩, hs, ht⟩
  · intro h
    obtain ⟨⟨a, b, c, hviol, hkept, rfl⟩, hs, ht⟩ := h
    exact ⟨a, b, c, ⟨hviol, hs, ht⟩, hkept, rfl⟩

end Print

/--
**Raised thresholds.** For every text, all levels, thresholds and orders of the loops, the same
or different ones in the two runs but for those of the search: under the larger of two supports
and of two confidences each program prints the lines that it prints under `s` and `t` and whose
support and exact confidence reach `s'` and `t'`, and no other lines. The variant that expands
into lists does so at every level but the largest `int`.
-/
theorem main_raised (ord ord' : PrintOrder) (search : PartC.SearchOrder)
    (expand expand' : PartC.Expand.ExpandOrder) (e : Int) (text : List Char) (s s' : Int)
    (t t' : ℚ) :
    Keeps s' t' (PartA.main ord text s t) (PartA.main ord' text (max s s') (max t t')) ∧
    Keeps s' t' (PartC.main ord search e text s t)
      (PartC.main ord' search e text (max s s') (max t t')) ∧
    (e < maxInt → Keeps s' t' (PartC.Expand.main ord expand e text s t)
      (PartC.Expand.main ord' expand' e text (max s s') (max t t'))) ∧
    Keeps s' t' (PartC.SetExpand.main ord expand text s t)
      (PartC.SetExpand.main ord' expand' text (max s s') (max t t')) := by
  have hall : ∀ {D : Database String String} {s : Int} {t : ℚ} (line : BugLine),
      (∃ a b c, D.Violation s t a b c ∧ line = bugLine D a b c) ↔
        ∃ a b c, D.Violation s t a b c ∧ True ∧ line = bugLine D a b c := by
    simp only [true_and, implies_true]
  rw [PartA.main_eq_run, PartA.main_eq_run, PartC.main_eq_run, PartC.main_eq_run]
  refine ⟨?_, ?_, ?_, ?_⟩
  · exact keeps_of_prints ((PartA.run_prints ord (blocks text) s t).congr hall)
      ((PartA.run_prints ord' (blocks text) _ _).congr hall)
  · exact keeps_of_prints (PartC.run_prints ord search e (blocks text) s t)
      (PartC.run_prints ord' search e (blocks text) _ _)
  · intro he
    exact keeps_of_prints ((PartC.Expand.main_prints_leaves ord expand he text s t).congr hall)
      ((PartC.Expand.main_prints_leaves ord' expand' he text _ _).congr hall)
  · exact keeps_of_prints ((PartC.SetExpand.main_prints_near ord expand text s t).congr hall)
      ((PartC.SetExpand.main_prints_near ord' expand' text _ _).congr hall)

theorem main_raised_test2 :
    Keeps 4 (1 / 2) (PartC.Expand.main default default 1 (write test2) 3 (2 / 5))
      (PartC.Expand.main default default 1 (write test2) (max 3 4) (max (2 / 5) (1 / 2))) :=
  (main_raised default default ⟨fun _ => default, default⟩ default default 1 (write test2) 3 4
    (2 / 5) (1 / 2)).2.2.1 (by decide)

namespace PartD

/-- The pair of a line that is not combined meets the thresholds. -/
def BugLine.Meets (s' : Int) (t' : ℚ) : BugLine → Prop
  | .single _ _ pair => s' ≤ pair.support ∧ t' ≤ pair.confidence
  | .combined .. => False

instance (s' : Int) (t' : ℚ) : DecidablePred (BugLine.Meets s' t') := fun line =>
  match line with
  | .single _ _ pair => inferInstanceAs (Decidable (s' ≤ pair.support ∧ t' ≤ pair.confidence))
  | .combined .. => inferInstanceAs (Decidable False)

namespace Earlier

theorem run_raised (ord ord' : PrintOrder) (bs : List Block) (s s' : Int) (t t' : ℚ) :
    ∃ out out', run ord bs s t = .ok out ∧ run ord' bs (max s s') (max t t') = .ok out' ∧
      out'.Perm (out.filter fun line => line.Meets s' t') := by
  refine (run_prints ord bs s t).perm_filter ((run_prints ord' bs _ _).congr fun line => ?_)
  simp only [OrderedDatabase.violation_max_iff, decide_eq_true_eq]
  constructor
  · intro h
    obtain ⟨a, x, y, c, ⟨hviol, hmeets⟩, rfl⟩ := h
    exact ⟨⟨a, x, y, c, hviol, rfl⟩, hmeets⟩
  · intro h
    obtain ⟨⟨a, x, y, c, hviol, rfl⟩, hmeets⟩ := h
    exact ⟨a, x, y, c, ⟨hviol, hmeets⟩, rfl⟩

end Earlier

/--
**Raised thresholds, pairs in order.** For every call graph whose functions have no commas in
their names, all thresholds and orders of the loops, and both versions of part D: taken apart
into single lines, what is printed under the larger of two supports and of two confidences is
what is printed under `s` and `t` with a support and a confidence that reach `s'` and `t'`.
-/
theorem run_raised_orders (ord ord' ordE ordE' : PrintOrder) (bs : List Block)
    (hcomma : CommaFree bs) (s s' : Int) (t t' : ℚ) :
    ∃ out out' outE outE', run ord bs s t = .ok out ∧
      run ord' bs (max s s') (max t t') = .ok out' ∧
      Earlier.run ordE bs s t = .ok outE ∧
      Earlier.run ordE' bs (max s s') (max t t') = .ok outE' ∧
      outE'.Perm (outE.filter fun line => line.Meets s' t') ∧
      (out'.flatMap Earlier.split).Perm
        ((out.flatMap Earlier.split).filter fun line => line.Meets s' t') := by
  obtain ⟨outE, outE', houtE, houtE', hperm⟩ := Earlier.run_raised ordE ordE' bs s s' t t'
  obtain ⟨out, hout, hreports⟩ := reports_run ord s t hcomma
  obtain ⟨out', hout', hreports'⟩ := reports_run ord' (max s s') (max t t') hcomma
  refine ⟨out, out', outE, outE', hout, hout', houtE, houtE', hperm, ?_⟩
  exact ((Earlier.flatMap_split_perm hreports' houtE').trans hperm).trans
    ((Earlier.flatMap_split_perm hreports houtE).filter _).symm

theorem run_raised_orders_eitherWay :
    ∃ out out' outE outE', run default eitherWay 3 (2 / 5) = .ok out ∧
      run default eitherWay (max 3 4) (max (2 / 5) (1 / 2)) = .ok out' ∧
      Earlier.run default eitherWay 3 (2 / 5) = .ok outE ∧
      Earlier.run default eitherWay (max 3 4) (max (2 / 5) (1 / 2)) = .ok outE' ∧
      outE'.Perm (outE.filter fun line => line.Meets 4 (1 / 2)) ∧
      (out'.flatMap Earlier.split).Perm
        ((out.flatMap Earlier.split).filter fun line => line.Meets 4 (1 / 2)) :=
  run_raised_orders default default default default eitherWay (by decide +kernel) 3 4 (2 / 5)
    (1 / 2)

end PartD

end Pipair
