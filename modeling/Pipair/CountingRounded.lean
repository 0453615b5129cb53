import Pipair.CountingReport
import Pipair.Doubles

/-!
# Part A by counting, in floating point

`qi/partA/pipair_java.java` divides the counts of its lists as `double`. A count is at
most the number of nodes, so the counts are in the range of `int` when the text has fewer
than `2 ^ 31` nodes, although the lists themselves may be longer. Then a whole percentage
gives the output of the exact program (`main_rounded_counts`).
-/

namespace Pipair.Counting.Rounded

open Doubles (double quotient threshold rounded quotient_eq quotient_test_iff)

-- ---------------------------------------------------------------------------
-- The program
-- ---------------------------------------------------------------------------

/-- The body of the loop over `map.keySet()`. -/
def printKey (ord : CountOrder) (st : State) (support : Int) (confidence : ℚ) (key : String) :
    Except Fault (List BugLine) := do
  let valueList ← deref (st.map.get key)
  let countMap := tally (fun elem => ({key, elem} : Finset String)) valueList
  let countMapKeySet : Finset String := {key}
  forEach (fun countMapKey =>
      if countMapKey ≠ countMapKeySet then do
        let supportPair ← deref (countMap.get countMapKey)
        let supportKey ← deref (countMap.get countMapKeySet)
        let confidencePair := quotient supportPair supportKey
        if support ≤ supportKey ∧ support ≤ supportPair ∧ confidencePair < 1 ∧
            confidence ≤ confidencePair then
          printCallers (fun _ _ _ => .ok false) (ord.elems key countMapKey)
            (ord.callers key countMapKey) st.location countMapKeySet countMapKey key supportPair
            confidencePair
        else pure []
      else pure [])
    ((ord.countMapKeys key).list countMap.keySet)

def printBug (ord : CountOrder) (st : State) (support : Int) (confidence : ℚ) :
    Except Fault (List BugLine) :=
  forEach (printKey ord st support confidence) (ord.keys.list st.map.keySet)

def main (ord : CountOrder) (text : List Char) (support : Int) (percent : ℚ) :
    Except Fault (List BugLine) := do
  let st ← scanLoop (actions ord) text (.ok init)
  printBug ord st support (threshold percent)

-- ---------------------------------------------------------------------------
-- Against the exact program
-- ---------------------------------------------------------------------------

section Print

variable {bs : List Block} {st : State} {s : Int} {ord : CountOrder}

theorem nodesWith_lt (hbs : bs.length < 2 ^ 31) (a b : String) : nodesWith bs a b < 2 ^ 31 :=
  (List.countP_le_length ..).trans_lt hbs

theorem printKey_rounded (h : Stored bs st) (hbs : bs.length < 2 ^ 31) (c : ℤ) {a : String}
    (ha : a ∈ st.map.keySet) :
    printKey ord st s (threshold c) a =
      (Counting.printKey ord st s (c / 100) a).map (List.map rounded) := by
  obtain ⟨l, hl⟩ := HashMap.exists_get_of_mem ha
  simp only [printKey, Counting.printKey, hl, deref_some, ok_bind]
  refine forEach_map rounded fun k hk => ?_
  split
  · -- the counts are numbers of nodes
    obtain ⟨b, rfl, -, hget, -⟩ := h.get_countMap hl ((Iteration.mem_list _).mp hk)
    obtain ⟨hself, hpos⟩ := h.get_countMap_self hl
    have hp : l.count b < 2 ^ 31 := by
      rw [h.count_list hl]
      exact nodesWith_lt hbs a b
    have hk : l.count a < 2 ^ 31 := by
      rw [h.count_list hl]
      exact nodesWith_lt hbs a a
    rw [countMap] at hget hself
    simp only [hget, hself, deref_some, ok_bind, quotient_test_iff hp (Nat.pos_of_ne_zero hpos) hk]
    split
    · rw [quotient_eq hp hk, Doubles.printCallers_rounded]
    · rfl
  · rfl

/-- **Rounded numbers.** The loops over consistent stores print the same lines in the same
order. -/
theorem printBug_rounded (h : Stored bs st) (hbs : bs.length < 2 ^ 31) (c : ℤ) :
    printBug ord st s (threshold c) =
      (Counting.printBug ord st s (c / 100)).map (List.map rounded) :=
  forEach_map rounded fun _ ha => printKey_rounded h hbs c ((Iteration.mem_list _).mp ha)

end Print

theorem main_eq_rounded (ord : CountOrder) {text : List Char} (hbs : (blocks text).length < 2 ^ 31)
    (s : Int) (c : ℤ) :
    main ord text s c = (Counting.main ord text s (c / 100)).map (List.map rounded) := by
  obtain ⟨st, hst, h⟩ := stored_run ord (blocks text)
  rw [main, Counting.main, scanLoop_eq_blocks, hst, ok_bind, ok_bind, printBug_rounded h hbs]

/--
**Rounded numbers do not matter to the counting version** for whole percentages. For every text
with fewer than `2 ^ 31` nodes, repeated headers included, every whole percentage and all orders
of the loops, it prints with `double` confidences and thresholds what it prints with exact ones,
line by line in the same order, each confidence rounded.
-/
theorem main_rounded_counts (ord : CountOrder) (text : List Char) (s : Int) (c : ℤ)
    (hbs : (blocks text).length < 2 ^ 31) :
    main ord text s c = (Counting.main ord text s (c / 100)).map (List.map rounded) :=
  main_eq_rounded ord hbs s c

theorem main_rounded_counts_twoCallers :
    main default Doubles.twoCallers 1 50 =
      (Counting.main default Doubles.twoCallers 1 ((50 : ℤ) / 100)).map (List.map rounded) :=
  main_rounded_counts default Doubles.twoCallers 1 50 (by decide +kernel)

end Pipair.Counting.Rounded
