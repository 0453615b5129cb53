import Pipair.PartD.Printed

/-!
# Part D, names with commas

`visit` keeps rendered pairs, and with commas in the names two pairs may be rendered
alike: `("p, q", "r")` and `("p", "q, r")` are both `(p, q, r)`. Then a pair that is
violated in both orders can be taken for one that was reported before.

What is left without any condition on the names is `run_prints_any`. Lines with one pair
are not concerned. A pair violated in both orders is never reported in both forms. It may
be in neither, but then one of the two is rendered like a pair of the same function that is
reported for the same caller in its place.
-/

namespace Pipair.PartD

open Mining

variable {D : OrderedDatabase String String} {s : Int} {t : ℚ} {location : Location}
  {ord : PrintOrder} {u : Candidate}

/-- The candidates that are reported. -/
def reportedCandidates (D : OrderedDatabase String String) (s : Int) (t : ℚ) (ord : PrintOrder)
    (location : Location) : List Candidate :=
  once Candidate.mirror Candidate.key (Paired D s t) (candidates D s t ord location) []

theorem combinedLine_mem_iff {a x y c : String} (hboth : D.BothViolated s t a x y c) :
    combinedLine D a x y c ∈ (reportedCandidates D s t ord location).map (lineOf D s t) ↔
      (⟨a, x, y, c⟩ : Candidate) ∈ reportedCandidates D s t ord location := by
  have heq : combinedLine D a x y c = lineOf D s t ⟨a, x, y, c⟩ := (if_pos hboth).symm
  rw [heq, List.mem_map_of_injective lineOf_injective]

theorem nodup_reported (hloc : Records location D) :
    (reportedCandidates D s t ord location).Nodup :=
  (once_sublist ..).nodup (nodup_candidates s t ord hloc)

theorem violation_of_reported (hloc : Records location D)
    (hu : u ∈ reportedCandidates D s t ord location) :
    D.Violation s t u.function u.first u.second u.caller :=
  (mem_candidates hloc).mp ((once_sublist ..).subset hu)

/-- A pair violated in both orders is reported, or one is in its place that is rendered like its
reverse. -/
theorem exists_reported (ord : PrintOrder) (hloc : Records location D) {a x y c : String}
    (hboth : D.BothViolated s t a x y c) :
    ∃ x' y', D.BothViolated s t a x' y' c ∧
      (⟨a, x', y', c⟩ : Candidate) ∈ reportedCandidates D s t ord location ∧
      ((x' = x ∧ y' = y) ∨ rendered x' y' = rendered y x) := by
  have hmem : (⟨a, x, y, c⟩ : Candidate) ∈ candidates D s t ord location :=
    (mem_candidates hloc).mpr hboth.forth
  have hor : (⟨a, x, y, c⟩ : Candidate) ∈ reportedCandidates D s t ord location ∨
      Candidate.key (Candidate.mirror ⟨a, x, y, c⟩) ∈ ([] : List (List String)) ∨
        ∃ v ∈ reportedCandidates D s t ord location, Paired D s t v ∧
          v.key = Candidate.key (Candidate.mirror ⟨a, x, y, c⟩) := mem_once_or hmem hboth
  rcases hor with hu | hnil | ⟨v, hv, hpv, hkey⟩
  · exact ⟨x, y, hboth, hu, Or.inl ⟨rfl, rfl⟩⟩
  · exact absurd hnil List.not_mem_nil
  · obtain ⟨a', x', y', c'⟩ := v
    simp only [Candidate.key, Candidate.mirror, List.cons.injEq, and_true] at hkey
    obtain ⟨rfl, hrendered, rfl⟩ := hkey
    exact ⟨x', y', hpv, hv, Or.inr hrendered⟩

/--
**Part D, whole run, any names.** For every call graph, all thresholds and orders of the loops,
whatever characters the names have, the run succeeds, prints no line twice, and

1. for each caller of `a` outside an order `(x, y)` that qualifies for `a`, but not outside both
   orders, it prints the single line;
2. for each caller outside both orders it prints at most one of the two combined lines, and it
   prints the first of them, or a combined line of `a` at this caller for a pair that is
   rendered like `(y, x)`;
3. there are no other lines.
-/
theorem run_prints_any (ord : PrintOrder) (bs : List Block) (s : Int) (t : ℚ) :
    ∃ out, run ord bs s t = .ok out ∧ out.Nodup ∧
      (∀ a x y c, QualifiesFor bs s t a x y → c ∈ callersOf bs a → c ∉ callersInOrder bs x y →
        ¬ OutsideBoth bs s t a x y c → singleLine (orderedDatabase bs) a x y c ∈ out) ∧
      (∀ a x y c, OutsideBoth bs s t a x y c →
        (combinedLine (orderedDatabase bs) a x y c ∈ out →
          combinedLine (orderedDatabase bs) a y x c ∉ out) ∧
        ∃ x' y', OutsideBoth bs s t a x' y' c ∧
          combinedLine (orderedDatabase bs) a x' y' c ∈ out ∧
          ((x' = x ∧ y' = y) ∨ rendered x' y' = rendered y x)) ∧
      ∀ line ∈ out,
        (∃ a x y c, OutsideBoth bs s t a x y c ∧
          line = combinedLine (orderedDatabase bs) a x y c) ∨
        ∃ a x y c, QualifiesFor bs s t a x y ∧ c ∈ callersOf bs a ∧
          c ∉ callersInOrder bs x y ∧ ¬ OutsideBoth bs s t a x y c ∧
          line = singleLine (orderedDatabase bs) a x y c := by
  have hloc := records_location bs
  have hrun : run ord bs s t = .ok ((reportedCandidates (orderedDatabase bs) s t ord
      (bs.foldl actions.runBlock init).location).map (lineOf (orderedDatabase bs) s t)) :=
    printBug_eq hloc
  refine ⟨_, hrun, (nodup_reported hloc).map lineOf_injective, ?_, ?_, ?_⟩
  · intro a x y c hq hc hn hnot
    rw [outsideBoth_iff] at hnot
    have hviol : (orderedDatabase bs).Violation s t a x y c := ⟨qualifiesFor_iff.mp hq, hc, hn⟩
    exact List.mem_map.mpr ⟨⟨a, x, y, c⟩,
      mem_once_of_not_paired ((mem_candidates hloc).mpr hviol) hnot, if_neg hnot⟩
  · intro a x y c hboth
    rw [outsideBoth_iff] at hboth
    constructor
    · intro h
      rw [combinedLine_mem_iff hboth] at h
      rw [combinedLine_mem_iff hboth.symm]
      exact mirror_notMem_once paired_mirror h hboth
    · obtain ⟨x', y', hboth', hmem, hrendered⟩ := exists_reported ord hloc hboth
      exact ⟨x', y', outsideBoth_iff.mpr hboth', (combinedLine_mem_iff hboth').mpr hmem,
        hrendered⟩
  · intro line hline
    obtain ⟨u, hu, rfl⟩ := List.mem_map.mp hline
    have hviol := violation_of_reported hloc hu
    by_cases hb : Paired (orderedDatabase bs) s t u
    · exact Or.inl ⟨_, _, _, _, outsideBoth_iff.mpr hb, if_pos hb⟩
    · refine Or.inr ⟨_, _, _, _, qualifiesFor_iff.mpr hviol.rule, hviol.mem, hviol.notMem, ?_,
        if_neg hb⟩
      rwa [outsideBoth_iff]

end Pipair.PartD
