import Pipair.Doubles
import Pipair.PartD.Earlier
import Pipair.RoundTrip

/-!
# Part D in floating point

Part D computes two confidences for a line with a pair and its reverse, and notes in
`visit` what it printed. With `double` confidences and a whole percentage it still prints
the lines of the exact program in the same order (`main_rounded_orders`), and so does its
first version, `proj/qi/partD/pipair_D.java`: what is noted does not depend on the
numbers, and all tests have the same results.
-/

namespace Pipair.PartD.Rounded

open Doubles (double quotient threshold quotient_eq quotient_test_iff IntSized lookup_card)

-- ---------------------------------------------------------------------------
-- The program
-- ---------------------------------------------------------------------------

/-- The body of the loop over `locationTemp`. -/
def printCaller (location : Location) (support : Int) (confidence : ℚ)
    (singleKey pipairKey : List String) (singleKeyStr : String) (supportKey supportPair : Nat)
    (confidencePair : ℚ) (locationTempStr : String) (visit : List (List String)) :
    Except Fault (List (List String) × List BugLine) := do
  let x ← element pipairKey 0
  let y ← element pipairKey 1
  -- pipairKey2 is the pipairKey in reverse order
  let pipairKey2 := [y, x]
  let pair : Reported := ⟨(x, y), supportPair, confidencePair⟩
  -- print other bug
  let other := (visit, [BugLine.single singleKeyStr locationTempStr pair])
  match location.lookup pipairKey2 with
  | none => pure other
  | some locationTemp2 =>
    if locationTemp2.Nonempty ∧ y ≠ x then
      let supportPair2 := locationTemp2.card
      let confidencePair2 := quotient supportPair2 supportKey
      if support ≤ supportKey ∧ support ≤ supportPair2 ∧ confidencePair2 < 1 ∧
          confidence ≤ confidencePair2 then
        let locationTempComp := (← deref (location.lookup singleKey)) \ locationTemp2
        if locationTempStr ∈ locationTempComp then
          if visit.contains [singleKeyStr, rendered y x, locationTempStr] then pure (visit, [])
          else
            pure (visit ++ [[singleKeyStr, rendered x y, locationTempStr]],
              [.combined singleKeyStr locationTempStr pair ⟨(y, x), supportPair2, confidencePair2⟩])
        else pure other
      else pure other
    else pure other

/-- The loop over `pipairKey` for a key with one function. -/
def printPairs (ord : PrintOrder) (location : Location) (support : Int) (confidence : ℚ)
    (singleKey : List String) (visit : List (List String)) :
    Except Fault (List (List String) × List BugLine) := do
  let supportKey := (← deref (location.lookup singleKey)).card
  let singleKeyStr ← element singleKey 0
  forEachWith (fun pipairKey visit =>
      if 1 < pipairKey.length ∧ singleKeyStr ∈ pipairKey then do
        let supportPair := (← deref (location.lookup pipairKey)).card
        let confidencePair := quotient supportPair supportKey
        -- check pipair to meet threshold support and confidence
        if support ≤ supportKey ∧ support ≤ supportPair ∧ confidencePair < 1 ∧
            confidence ≤ confidencePair then
          -- location for pipair should take place of single function
          let locationTemp :=
            (← deref (location.lookup singleKey)) \ (← deref (location.lookup pipairKey))
          forEachWith (printCaller location support confidence singleKey pipairKey singleKeyStr
            supportKey supportPair confidencePair)
            ((ord.callers singleKey pipairKey).list locationTemp) visit
        else pure (visit, [])
      else pure (visit, []))
    ((ord.pipairKeys singleKey).list location.keys) visit

def printBug (ord : PrintOrder) (location : Location) (support : Int) (confidence : ℚ) :
    Except Fault (List BugLine) := do
  let (_, out) ← forEachWith (fun key visit =>
      if key.length = 1 then printPairs ord location support confidence key visit
      else pure (visit, []))
    (ord.singleKeys.list location.keys) []
  pure out

def main (ord : PrintOrder) (text : List Char) (support : Int) (percent : ℚ) :
    Except Fault (List BugLine) :=
  printBug ord (scanLoop actions text init).location support (threshold percent)

namespace Earlier

/-- The loop over `pipairKey` of the first version. -/
def printPairs (ord : PrintOrder) (location : Location) (support : Int) (confidence : ℚ)
    (singleKey : List String) : Except Fault (List BugLine) := do
  let supportKey := (← deref (location.lookup singleKey)).card
  let singleKeyStr ← element singleKey 0
  forEach (fun pipairKey =>
      if 1 < pipairKey.length ∧ singleKeyStr ∈ pipairKey then do
        let supportPair := (← deref (location.lookup pipairKey)).card
        let confidencePair := quotient supportPair supportKey
        if support ≤ supportKey ∧ support ≤ supportPair ∧ confidencePair < 1 ∧
            confidence ≤ confidencePair then
          PartD.Earlier.printCallers ord location singleKey pipairKey singleKeyStr supportPair
            confidencePair
        else pure []
      else pure [])
    ((ord.pipairKeys singleKey).list location.keys)

def printBug (ord : PrintOrder) (location : Location) (support : Int) (confidence : ℚ) :
    Except Fault (List BugLine) :=
  forEach (fun key =>
      if key.length = 1 then printPairs ord location support confidence key else pure [])
    (ord.singleKeys.list location.keys)

def main (ord : PrintOrder) (text : List Char) (support : Int) (percent : ℚ) :
    Except Fault (List BugLine) :=
  printBug ord (scanLoop PartD.Earlier.actions text init).location support (threshold percent)

end Earlier

-- ---------------------------------------------------------------------------
-- Against the exact programs
-- ---------------------------------------------------------------------------

/-- The pair with the confidence that the program computes. -/
def roundedPair (r : Reported) : Reported := { r with confidence := double r.confidence }

/-- The line with the confidences that the program computes. -/
def rounded : BugLine → BugLine
  | .single function caller pair => .single function caller (roundedPair pair)
  | .combined function caller pair pair2 =>
    .combined function caller (roundedPair pair) (roundedPair pair2)

section Print

variable {ord : PrintOrder} {location : Location} {s : Int}

/-- The first confidence is only passed on, and the second is tested like the first one. -/
theorem printCaller_rounded (hsize : IntSized location) (c : ℤ) (singleKey pipairKey : List String)
    (singleKeyStr : String) {supportKey : Nat} (hk0 : 0 < supportKey) (hk : supportKey < 2 ^ 31)
    (supportPair : Nat) (x : ℚ) (caller : String) (visit : List (List String)) :
    printCaller location s (threshold c) singleKey pipairKey singleKeyStr supportKey supportPair
        (double x) caller visit =
      (PartD.printCaller location s (c / 100) singleKey pipairKey singleKeyStr supportKey
        supportPair x caller visit).map fun r => (r.1, r.2.map rounded) := by
  simp only [printCaller, PartD.printCaller, List.contains_iff_mem]
  cases element pipairKey 0 with
  | error => rfl
  | ok first =>
    cases element pipairKey 1 with
    | error => rfl
    | ok second =>
      simp only [ok_bind]
      cases hpair2 : location.lookup [second, first] with
      | none => rfl
      | some locationTemp2 =>
        obtain ⟨-, hp⟩ := lookup_card hsize hpair2
        simp only [quotient_test_iff hp hk0 hk c]
        split
        · split
          · cases deref (location.lookup singleKey) with
            | error => rfl
            | ok single =>
              simp only [ok_bind, quotient_eq hp hk]
              split
              · split <;> rfl
              · rfl
          · rfl
        · rfl

theorem printPairs_rounded (hsize : IntSized location) (c : ℤ) (singleKey : List String)
    (visit : List (List String)) :
    printPairs ord location s (threshold c) singleKey visit =
      (PartD.printPairs ord location s (c / 100) singleKey visit).map
        fun r => (r.1, r.2.map rounded) := by
  rw [printPairs, PartD.printPairs]
  cases hsingle : location.lookup singleKey with
  | none => rfl
  | some single =>
    obtain ⟨hk0, hk⟩ := lookup_card hsize hsingle
    simp only [deref_some, ok_bind]
    cases element singleKey 0 with
    | error => rfl
    | ok singleKeyStr =>
      refine forEachWith_map rounded (fun pipairKey _ visit => ?_) visit
      split
      · cases hpair : location.lookup pipairKey with
        | none => rfl
        | some pair =>
          obtain ⟨-, hp⟩ := lookup_card hsize hpair
          simp only [deref_some, ok_bind, quotient_test_iff hp hk0 hk c]
          split
          · rw [quotient_eq hp hk]
            exact forEachWith_map rounded (fun caller _ visit =>
              printCaller_rounded hsize c _ _ _ hk0 hk _ _ caller visit) visit
          · rfl
      · rfl

/-- **Rounded numbers.** The loops note the same pairs and print the same lines in the same
order, and fail where the exact ones fail. -/
theorem printBug_rounded (hsize : IntSized location) (c : ℤ) :
    printBug ord location s (threshold c) =
      (PartD.printBug ord location s (c / 100)).map (List.map rounded) := by
  rw [printBug, PartD.printBug, forEachWith_map rounded fun singleKey _ visit => ?_]
  · cases forEachWith _ _ _ with
    | error => rfl
    | ok r => rfl
  · split
    · exact printPairs_rounded hsize c singleKey visit
    · rfl

theorem Earlier.printPairs_rounded (hsize : IntSized location) (c : ℤ) (singleKey : List String) :
    Earlier.printPairs ord location s (threshold c) singleKey =
      (PartD.Earlier.printPairs ord location s (c / 100) singleKey).map (List.map rounded) := by
  rw [Earlier.printPairs, PartD.Earlier.printPairs]
  cases hsingle : location.lookup singleKey with
  | none => rfl
  | some single =>
    obtain ⟨hk0, hk⟩ := lookup_card hsize hsingle
    simp only [deref_some, ok_bind]
    cases element singleKey 0 with
    | error => rfl
    | ok singleKeyStr =>
      refine forEach_map rounded fun pipairKey _ => ?_
      split
      · cases hpair : location.lookup pipairKey with
        | none => rfl
        | some pair =>
          obtain ⟨-, hp⟩ := lookup_card hsize hpair
          simp only [deref_some, ok_bind, quotient_test_iff hp hk0 hk c]
          split
          · rw [quotient_eq hp hk, PartD.Earlier.printCallers, PartD.Earlier.printCallers]
            cases element pipairKey 0 with
            | error => rfl
            | ok x =>
              cases element pipairKey 1 with
              | error => rfl
              | ok y =>
                simp only [ok_bind, hsingle, hpair, deref_some]
                exact forEach_map rounded fun caller _ => rfl
          · rfl
      · rfl

theorem Earlier.printBug_rounded (hsize : IntSized location) (c : ℤ) :
    Earlier.printBug ord location s (threshold c) =
      (PartD.Earlier.printBug ord location s (c / 100)).map (List.map rounded) := by
  refine forEach_map rounded fun singleKey _ => ?_
  split
  · exact Earlier.printPairs_rounded hsize c singleKey
  · rfl

end Print

theorem intSized_location {bs : List Block} (hbs : bs.length < 2 ^ 31) :
    IntSized (bs.foldl actions.runBlock init).location := by
  refine Doubles.intSized_of_callers hbs fun k c hc => ?_
  obtain ⟨b, hb, -, hcaller⟩ := (mem_get_location bs k c).mp hc
  exact ⟨b, hb, hcaller⟩

section Main

variable {text : List Char} (ord : PrintOrder) (hbs : (blocks text).length < 2 ^ 31) (s : Int)
  (c : ℤ)

include hbs

theorem main_eq_rounded :
    main ord text s c = (PartD.main ord text s (c / 100)).map (List.map rounded) := by
  rw [main, PartD.main, scanLoop_eq_blocks, printBug_rounded (intSized_location hbs)]

theorem Earlier.main_eq_rounded :
    Earlier.main ord text s c =
      (PartD.Earlier.main ord text s (c / 100)).map (List.map rounded) := by
  rw [Earlier.main, PartD.Earlier.main, PartD.Earlier.actions_eq, scanLoop_eq_blocks,
    Earlier.printBug_rounded (intSized_location hbs)]

end Main

/--
**Rounded numbers do not matter to part D** for whole percentages. For every text with fewer than
`2 ^ 31` nodes, every whole percentage and all orders of the loops, both versions of part D with
`double` confidences and thresholds print what they print with exact ones, line by line in the
same order, with one pair or with two, each confidence rounded.
-/
theorem main_rounded_orders (ord : PrintOrder) (text : List Char) (s : Int) (c : ℤ)
    (hbs : (blocks text).length < 2 ^ 31) :
    main ord text s c = (PartD.main ord text s (c / 100)).map (List.map rounded) ∧
    Earlier.main ord text s c =
      (PartD.Earlier.main ord text s (c / 100)).map (List.map rounded) :=
  ⟨main_eq_rounded ord hbs s c, Earlier.main_eq_rounded ord hbs s c⟩

/-- The text of `eitherWay` has a violation of both orders, which the later version reports in
one line. -/
theorem main_rounded_orders_eitherWay :
    ∃ out outEarlier : List BugLine,
      main default (write eitherWay) 3 40 = .ok (out.map rounded) ∧
      Earlier.main default (write eitherWay) 3 40 = .ok (outEarlier.map rounded) ∧
      ∃ x y, combinedLine (orderedDatabase eitherWay) "A" x y "f7" ∈ out := by
  have hblocks : blocks (write eitherWay) = eitherWay := by decide +kernel
  have hcomma : CommaFree eitherWay := by decide +kernel
  obtain ⟨out, hout, hreports⟩ := reports_run default 3 ((40 : ℤ) / 100) hcomma
  obtain ⟨outEarlier, hearlier, -⟩ :=
    PartD.Earlier.run_prints default eitherWay 3 ((40 : ℤ) / 100)
  obtain ⟨hlater, hfirst⟩ := main_rounded_orders default (write eitherWay) 3 40
    (by rw [hblocks]; decide)
  rw [PartD.main_eq_run, hblocks, hout] at hlater
  rw [PartD.Earlier.main_eq_run, hblocks, hearlier] at hfirst
  refine ⟨out, outEarlier, hlater, hfirst, ?_⟩
  have hboth : (orderedDatabase eitherWay).BothViolated 3 ((40 : ℤ) / 100) "A" "A" "B" "f7" := by
    decide +kernel
  by_cases hmem : combinedLine (orderedDatabase eitherWay) "A" "A" "B" "f7" ∈ out
  · exact ⟨"A", "B", hmem⟩
  · exact ⟨"B", "A", (hreports.combined "A" "B" "A" "f7" hboth.symm).mpr hmem⟩

-- ---------------------------------------------------------------------------
-- The printed text
-- ---------------------------------------------------------------------------

/-- A pair in the argument of `println`, its confidence written as for the other programs. -/
def pairText (decimal : ℚ → ℚ) (r : Reported) : String :=
  "pair: " ++ rendered r.pair.1 r.pair.2 ++ ", support: " ++ toString r.support ++
    ", confidence: " ++ percent (decimal (double (r.confidence * 100)) / 100)

/-- The argument of `println`. -/
def text (decimal : ℚ → ℚ) : BugLine → String
  | .single function caller pair =>
    "bug: " ++ function ++ " in " ++ caller ++ ", " ++ pairText decimal pair
  | .combined function caller pair pair2 =>
    "bug: " ++ function ++ " in " ++ caller ++ ", " ++ pairText decimal pair ++ " or " ++
      pairText decimal pair2

end Pipair.PartD.Rounded
