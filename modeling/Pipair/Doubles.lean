import Pipair.Library.Rounding
import Pipair.PartC.ListExpand

/-!
# The thresholds in floating point

The programs compute confidences as `double`: the quotient of the two supports is
rounded, and so is the threshold, a percentage divided by 100. Elsewhere both are
rationals. Here the programs that key `location` by sets are run with rounded
numbers.

With a whole percentage this does not matter (`main_rounded`): the same lines are
printed in the same order, each with its confidence rounded. It does matter with
decimals, for the pairs that meet the threshold exactly: `74.4` divided by 100 is
rounded to more than what 93 of 125 is rounded to.
-/

namespace Pipair.Doubles

open Mining

-- ---------------------------------------------------------------------------
-- The numbers
-- ---------------------------------------------------------------------------

/-- The `double` that is nearest to a number. -/
def double (x : ℚ) : ℚ := Rounding.round 53 x

/-- `(double)supportPair/(double)supportKey` -/
def quotient (supportPair supportKey : Nat) : ℚ :=
  double (double supportPair / double supportKey)

/-- `confidence = Double.parseDouble(args[2]); confidence = confidence/100;` -/
def threshold (percent : ℚ) : ℚ := double (double percent / 100)

/-- A decimal that pairs meet without being found. -/
example : (93 : ℚ) / 125 = (744 / 10) / 100 ∧ ¬ threshold (744 / 10) ≤ quotient 93 125 := by
  decide +kernel

theorem double_natCast {n : Nat} (hn : n < 2 ^ 31) : double n = n := by
  have habs : |(n : ℤ)| < 2 ^ 53 := by
    rw [Nat.abs_cast]
    exact_mod_cast hn.trans (by norm_num)
  exact_mod_cast Rounding.round_intCast habs

theorem quotient_eq {p k : Nat} (hp : p < 2 ^ 31) (hk : k < 2 ^ 31) :
    quotient p k = double (p / k) := by
  rw [quotient, double_natCast hp, double_natCast hk]

/-- A quotient compares with a fraction of small terms as the numbers do. -/
theorem double_div_le_iff {p k : Nat} {c : ℤ} {q : Nat} (hp : p < 2 ^ 31) (hk0 : 0 < k)
    (hk : k < 2 ^ 31) (hq : 0 < q) (hq' : q ≤ 100) (hc : |c| ≤ 100) :
    double (c / q) ≤ double (p / k) ↔ (c : ℚ) / q ≤ p / k := by
  have hsmall : |(p : ℤ)| * q + |c| * k < 2 ^ 53 := by
    have h1 : |(p : ℤ)| * q ≤ 2 ^ 31 * 100 := by
      rw [Nat.abs_cast]
      exact mul_le_mul (by exact_mod_cast hp.le) (by exact_mod_cast hq') (by positivity)
        (by positivity)
    have h2 : |c| * k ≤ 100 * 2 ^ 31 :=
      mul_le_mul hc (by exact_mod_cast hk.le) (by positivity) (by positivity)
    calc |(p : ℤ)| * q + |c| * k ≤ 2 ^ 31 * 100 + 100 * 2 ^ 31 := add_le_add h1 h2
      _ < 2 ^ 53 := by norm_num
  have h := Rounding.round_div_le_iff hk0 hq hsmall
  rwa [Int.cast_natCast] at h

/-- A threshold above one is one after rounding. -/
theorem one_lt_threshold {c : ℤ} (hc : 101 ≤ c) : 1 < threshold c := by
  have hc' : (101 : ℚ) ≤ c := by exact_mod_cast hc
  have h1 : (c : ℚ) - c / 2 ^ 53 ≤ double c := by
    have herr := (abs_le.mp (Rounding.abs_round_sub_le 53 (c : ℚ))).1
    rw [abs_of_nonneg (by linarith)] at herr
    unfold double
    linarith
  have hd : (100 + 1 / 2 : ℚ) ≤ double c := by linarith
  have h2 := (abs_le.mp (Rounding.abs_round_sub_le 53 (double c / 100))).1
  rw [abs_of_nonneg (by linarith)] at h2
  unfold threshold
  show 1 < Rounding.round 53 (double c / 100)
  linarith

theorem threshold_nonpos {c : ℤ} (hc : c ≤ 0) : threshold c ≤ 0 := by
  have hc' : (c : ℚ) ≤ 0 := by exact_mod_cast hc
  have hd : double c ≤ 0 := Rounding.round_nonpos hc'
  exact Rounding.round_nonpos (by linarith)

/-- **The test of a pair** has the same result with rounded numbers, for all supports in the
range of `int` and all whole percentages. -/
theorem quotient_test_iff {p k : Nat} (hp : p < 2 ^ 31) (hk0 : 0 < k) (hk : k < 2 ^ 31) (c : ℤ) :
    (quotient p k < 1 ∧ threshold c ≤ quotient p k) ↔
      ((p : ℚ) / k < 1 ∧ (c : ℚ) / 100 ≤ p / k) := by
  rw [quotient_eq hp hk]
  have hone : double (p / k) < 1 ↔ (p : ℚ) / k < 1 := by
    have h := double_div_le_iff (c := 1) (q := 1) hp hk0 hk (by norm_num) (by norm_num)
      (by norm_num)
    have h1 : double (((1 : ℤ) : ℚ) / ((1 : Nat) : ℚ)) = 1 := by
      simpa using double_natCast (n := 1) (by norm_num)
    rw [h1] at h
    rw [← not_le, ← not_le, h]
    norm_num
  rw [hone]
  refine and_congr_right fun hlt => ?_
  have hnonneg : (0 : ℚ) ≤ p / k := by positivity
  rcases le_or_gt c 0 with hc | hc
  · -- everything meets a threshold that is not positive
    have hc' : (c : ℚ) ≤ 0 := by exact_mod_cast hc
    exact iff_of_true ((threshold_nonpos hc).trans (Rounding.round_nonneg hnonneg)) (by linarith)
  rcases le_or_gt c 100 with hc100 | hc100
  · have habs : |c| ≤ 100 := abs_le.mpr ⟨by omega, hc100⟩
    have hexact : double (c : ℚ) = c := by
      exact_mod_cast Rounding.round_intCast (p := 53) (n := c) (by omega)
    rw [threshold, hexact]
    exact_mod_cast double_div_le_iff (q := 100) hp hk0 hk (by norm_num) le_rfl habs
  · -- nothing meets a threshold above one
    have hc' : (101 : ℚ) ≤ c := by exact_mod_cast hc100
    have hthr := one_lt_threshold (c := c) (by omega)
    refine iff_of_false ?_ ?_
    · linarith [hone.mpr hlt]
    · linarith

-- ---------------------------------------------------------------------------
-- The program
-- ---------------------------------------------------------------------------

/-- The loop over `pipairKey` for a key with one function. -/
def printPairs (suppressed : Finset String → Finset String → String → Except Fault Bool)
    (ord : PrintOrder) (location : Location) (support : Int) (confidence : ℚ)
    (singleKey : Finset String) : Except Fault (List BugLine) := do
  let supportKey := (← deref (location.lookup singleKey)).card
  let singleKeyStr ← element (ord.toArray.list singleKey) 0
  forEach (fun pipairKey =>
      if 1 < pipairKey.card ∧ singleKeyStr ∈ pipairKey then do
        let supportPair := (← deref (location.lookup pipairKey)).card
        let confidencePair := quotient supportPair supportKey
        -- check pipair to meet threshold support and confidence
        if support ≤ supportKey ∧ support ≤ supportPair ∧ confidencePair < 1 ∧
            confidence ≤ confidencePair then
          printCallers suppressed ord.toArray (ord.callers singleKey pipairKey) location
            singleKey pipairKey singleKeyStr supportPair confidencePair
        else pure []
      else pure [])
    ((ord.pipairKeys singleKey).list location.keys)

def printBugWith (suppressed : Finset String → Finset String → String → Except Fault Bool)
    (ord : PrintOrder) (location : Location) (support : Int) (confidence : ℚ) :
    Except Fault (List BugLine) :=
  forEach (fun singleKey =>
      if singleKey.card = 1 then
        printPairs suppressed ord location support confidence singleKey
      else pure [])
    (ord.singleKeys.list location.keys)

/-- The line with the confidence that the program computes. -/
def rounded (line : BugLine) : BugLine := { line with confidence := double line.confidence }

-- ---------------------------------------------------------------------------
-- Against the exact program
-- ---------------------------------------------------------------------------

section Print

variable {suppressed : Finset String → Finset String → String → Except Fault Bool}
  {ord : PrintOrder} {location : Location} {s : Int}

/-- The confidence is only passed on to the lines. -/
theorem printCallers_rounded (toArray callers : Iteration String)
    (singleKey pipairKey : Finset String) (singleKeyStr : String) (supportPair : Nat) (x : ℚ) :
    printCallers suppressed toArray callers location singleKey pipairKey singleKeyStr supportPair
        (double x) =
      (printCallers suppressed toArray callers location singleKey pipairKey singleKeyStr
        supportPair x).map (List.map rounded) := by
  simp only [printCallers]
  cases element (toArray.list pipairKey) 0 with
  | error => rfl
  | ok pairStr1 =>
    cases element (toArray.list pipairKey) 1 with
    | error => rfl
    | ok pairStr2 =>
      cases deref (location.lookup singleKey) with
      | error => rfl
      | ok single =>
        cases deref (location.lookup pipairKey) with
        | error => rfl
        | ok pair =>
          refine forEach_map rounded fun c _ => ?_
          cases suppressed singleKey pipairKey c with
          | error => rfl
          | ok flag => cases flag <;> rfl

/-- The sizes that Java has for its sets. -/
def IntSized {κ : Type} (location : Index κ String) : Prop :=
  ∀ k, (location.get k).card < 2 ^ 31

theorem lookup_card {κ : Type} {location : Index κ String} (hsize : IntSized location) {k : κ}
    {callers : Finset String} (h : location.lookup k = some callers) :
    0 < callers.card ∧ callers.card < 2 ^ 31 := by
  obtain ⟨rfl, hne⟩ := Index.lookup_eq_some_iff.mp h
  exact ⟨Finset.card_pos.mpr hne, hsize k⟩

theorem printPairs_rounded (hsize : IntSized location) (c : ℤ) (singleKey : Finset String) :
    printPairs suppressed ord location s (threshold c) singleKey =
      (Pipair.printPairs suppressed ord location s (c / 100) singleKey).map
        (List.map rounded) := by
  rw [printPairs, Pipair.printPairs]
  cases hsingle : location.lookup singleKey with
  | none => rfl
  | some single =>
    obtain ⟨hk0, hk⟩ := lookup_card hsize hsingle
    simp only [deref_some, ok_bind]
    cases element (ord.toArray.list singleKey) 0 with
    | error => rfl
    | ok singleKeyStr =>
      refine forEach_map rounded fun pipairKey _ => ?_
      split
      · cases hpair : location.lookup pipairKey with
        | none => rfl
        | some pair =>
          obtain ⟨-, hp⟩ := lookup_card hsize hpair
          simp only [deref_some, ok_bind, quotient_test_iff hp hk0 hk c]
          split
          · rw [quotient_eq hp hk, printCallers_rounded]
          · rfl
      · rfl

/-- **Rounded numbers.** The loops print the same lines in the same order, and fail where the
exact ones fail. -/
theorem printBugWith_rounded (hsize : IntSized location) (c : ℤ) :
    printBugWith suppressed ord location s (threshold c) =
      (Pipair.printBugWith suppressed ord location s (c / 100)).map (List.map rounded) := by
  refine forEach_map rounded fun singleKey _ => ?_
  split
  · exact printPairs_rounded hsize c singleKey
  · rfl

end Print

-- ---------------------------------------------------------------------------
-- The programs
-- ---------------------------------------------------------------------------

/-- `main` of part A. -/
def partA (ord : PrintOrder) (text : List Char) (support : Int) (percent : ℚ) :
    Except Fault (List BugLine) :=
  printBugWith (fun _ _ _ => .ok false) ord (scanLoop PartA.actions text PartA.init).location
    support (threshold percent)

/-- `main` of the variant of part C that searches. -/
def search (ord : PrintOrder) (search : PartC.SearchOrder) (expandLevel : Int) (text : List Char)
    (support : Int) (percent : ℚ) : Except Fault (List BugLine) :=
  let st := scanLoop PartC.actions text PartC.init
  printBugWith (PartC.flag st.callerCallee search expandLevel) ord st.location support
    (threshold percent)

/-- `main` of the variant of part C that expands into lists. -/
def expand (ord : PrintOrder) (expand : PartC.Expand.ExpandOrder) (expandLevel : Int)
    (text : List Char) (support : Int) (percent : ℚ) : Except Fault (List BugLine) := do
  let st := scanLoop PartC.Expand.actions text PartC.Expand.init
  let location ← PartC.Expand.initInterLocation st.callerCallee expand expandLevel
  printBugWith (fun _ _ _ => .ok false) ord location support (threshold percent)

/-- `main` of the variant of part C that expands into sets. -/
def setExpand (ord : PrintOrder) (expand : PartC.Expand.ExpandOrder) (text : List Char)
    (support : Int) (percent : ℚ) : Except Fault (List BugLine) := do
  let st := scanLoop PartC.SetExpand.actions text PartC.init
  let location ← PartC.SetExpand.initInterLocation st.callerCallee expand st.location
  printBugWith (fun _ _ _ => .ok false) ord location support (threshold percent)

section Sizes

variable {bs : List Block} {κ : Type} {location : Index κ String}

theorem card_lt_of_callers (hbs : bs.length < 2 ^ 31) {callers : Finset String}
    (h : ∀ c ∈ callers, ∃ b ∈ bs, c = b.caller) : callers.card < 2 ^ 31 := by
  have hsub : callers ⊆ (bs.map Block.caller).toFinset := by
    intro c hc
    obtain ⟨b, hb, rfl⟩ := h c hc
    exact List.mem_toFinset.mpr (List.mem_map_of_mem hb)
  calc callers.card ≤ (bs.map Block.caller).toFinset.card := Finset.card_le_card hsub
    _ ≤ (bs.map Block.caller).length := List.toFinset_card_le _
    _ = bs.length := List.length_map _
    _ < 2 ^ 31 := hbs

theorem intSized_of_callers (hbs : bs.length < 2 ^ 31)
    (h : ∀ k c, c ∈ location.get k → ∃ b ∈ bs, c = b.caller) : IntSized location :=
  fun k => card_lt_of_callers hbs (h k)

theorem intSized_read (hbs : bs.length < 2 ^ 31) :
    IntSized (bs.foldl PartA.actions.runBlock PartA.init).location := by
  refine intSized_of_callers hbs fun k c hc => ?_
  obtain ⟨b, hb, -, hcaller⟩ := (PartA.mem_get_location bs k c).mp hc
  exact ⟨b, hb, hcaller⟩

theorem exists_block_of_mem_keySet {c : String} (hc : c ∈ (lastCallees bs).keySet) :
    ∃ b ∈ bs, c = b.caller := by
  obtain ⟨s, hs⟩ := Option.isSome_iff_exists.mp (((lastCallees bs).mem_keySet c).mp hc)
  obtain ⟨pre, b, post, rfl, hcaller, -⟩ := get_lastCallees_iff.mp hs
  exact ⟨b, by simp, hcaller.symm⟩

end Sizes

section Programs

variable {text : List Char} (hbs : (blocks text).length < 2 ^ 31) (s : Int) (c : ℤ)

include hbs

theorem partA_eq_rounded (ord : PrintOrder) :
    partA ord text s c = (PartA.main ord text s (c / 100)).map (List.map rounded) := by
  rw [partA, scanLoop_eq_blocks, printBugWith_rounded (intSized_read hbs), PartA.main,
    scanLoop_eq_blocks]
  rfl

theorem search_eq_rounded (ord : PrintOrder) (searchOrd : PartC.SearchOrder) (e : Int) :
    search ord searchOrd e text s c =
      (PartC.main ord searchOrd e text s (c / 100)).map (List.map rounded) := by
  have hst : scanLoop PartC.actions text PartC.init = PartC.stateOf (blocks text) :=
    scanLoop_eq_blocks ..
  rw [search, hst, printBugWith_rounded (by rw [PartC.stateOf_location]; exact intSized_read hbs),
    PartC.main, hst]
  rfl

theorem expand_eq_rounded (ord : PrintOrder) (expandOrd : PartC.Expand.ExpandOrder) (e : Int) :
    expand ord expandOrd e text s c =
      (PartC.Expand.main ord expandOrd e text s (c / 100)).map (List.map rounded) := by
  rw [expand, PartC.Expand.main, PartC.Expand.scanLoop_callerCallee]
  -- a run that does not come to print is the same in both
  cases hrun : PartC.Expand.initInterLocation (lastCallees (blocks text)) expandOrd e with
  | error fault => rfl
  | ok location =>
    obtain ⟨_, -, hmem⟩ := PartC.Expand.extend_ok_of_initInterLocation hrun
    have hsize : IntSized location := intSized_of_callers hbs fun k c hc =>
      exists_block_of_mem_keySet ((hmem k c).mp hc).1
    rw [ok_bind, ok_bind, printBugWith_rounded hsize]
    rfl

theorem setExpand_eq_rounded (ord : PrintOrder) (expandOrd : PartC.Expand.ExpandOrder) :
    setExpand ord expandOrd text s c =
      (PartC.SetExpand.main ord expandOrd text s (c / 100)).map (List.map rounded) := by
  obtain ⟨location, hrun, hmem⟩ := PartC.SetExpand.exists_initInterLocation
    (lastCallees (blocks text)) expandOrd (PartC.stateOf (blocks text)).location
  have hsize : IntSized location := by
    refine intSized_of_callers hbs fun k c hc => ?_
    rcases (hmem k c).mp hc with hc | ⟨x, hx, -⟩
    · rw [PartC.stateOf_location] at hc
      obtain ⟨b, hb, -, hcaller⟩ := (PartA.mem_get_location _ k c).mp hc
      exact ⟨b, hb, hcaller⟩
    · exact exists_block_of_mem_keySet (PartC.SetExpand.mem_keySet_of_mem_extend hx)
  have hst : scanLoop PartC.SetExpand.actions text PartC.init = PartC.stateOf (blocks text) :=
    scanLoop_eq_blocks ..
  rw [setExpand, PartC.SetExpand.main, hst, PartC.stateOf_callerCallee, hrun, ok_bind, ok_bind,
    printBugWith_rounded hsize]
  rfl

end Programs

/--
**Rounded numbers do not matter** for whole percentages. For every text with fewer than `2 ^ 31`
nodes, every whole percentage, negative ones and those above 100 included, and all orders of the
loops, the programs with `double` confidences and thresholds print what the programs with exact
ones print, line by line in the same order, each confidence rounded.
-/
theorem main_rounded (ord : PrintOrder) (searchOrd : PartC.SearchOrder)
    (expandOrd : PartC.Expand.ExpandOrder) (e : Int) (text : List Char) (s : Int) (c : ℤ)
    (hbs : (blocks text).length < 2 ^ 31) :
    partA ord text s c = (PartA.main ord text s (c / 100)).map (List.map rounded) ∧
    search ord searchOrd e text s c =
      (PartC.main ord searchOrd e text s (c / 100)).map (List.map rounded) ∧
    expand ord expandOrd e text s c =
      (PartC.Expand.main ord expandOrd e text s (c / 100)).map (List.map rounded) ∧
    setExpand ord expandOrd text s c =
      (PartC.SetExpand.main ord expandOrd text s (c / 100)).map (List.map rounded) :=
  ⟨partA_eq_rounded hbs s c ord, search_eq_rounded hbs s c ord searchOrd e,
    expand_eq_rounded hbs s c ord expandOrd e, setExpand_eq_rounded hbs s c ord expandOrd⟩

/-- Two callers of `A`, one of which calls `B` too. -/
def twoCallers : List Char := "Call'f'\n'A'\n'B'\n\nCall'g'\n'A'\n".toList

theorem main_rounded_twoCallers :
    partA default twoCallers 1 50 =
        (PartA.main default twoCallers 1 ((50 : ℤ) / 100)).map (List.map rounded) ∧
      expand default default 1 twoCallers 1 50 =
        (PartC.Expand.main default default 1 twoCallers 1 ((50 : ℤ) / 100)).map
          (List.map rounded) := by
  obtain ⟨hA, -, hexpand, -⟩ := main_rounded default ⟨fun _ => default, default⟩ default 1
    twoCallers 1 50 (by decide +kernel)
  exact ⟨hA, hexpand⟩

-- ---------------------------------------------------------------------------
-- The printed percentage
-- ---------------------------------------------------------------------------

/-- The confidence is halfway between two hundredths of a percent. -/
def Tie (x : ℚ) : Prop := ∃ n : ℤ, x * 10000 + 1 / 2 = n

/-- The argument of `println` with `String.format("%.2f", confidencePair*100)`. The digits that
are rounded are those of `decimal`, a decimal notation of the `double`. -/
def text (decimal : ℚ → ℚ) (l : BugLine) : String :=
  "bug: " ++ l.function ++ " in " ++ l.caller ++ ", pair: (" ++ l.pair.1 ++ ", " ++ l.pair.2 ++
    "), support: " ++ toString l.support ++ ", confidence: " ++
    percent (decimal (double (l.confidence * 100)) / 100)

section Percent

variable {decimal : ℚ → ℚ} {p k : Nat}

/-- Rounding twice and writing the result in decimals changes a confidence by little. -/
theorem abs_decimal_sub_le (hdecimal : ∀ d, |decimal d - d| ≤ |d| / 2 ^ 52) {x : ℚ} (h0 : 0 ≤ x)
    (h1 : x ≤ 1) : |decimal (double (double x * 100)) - x * 100| ≤ 404 / 2 ^ 53 := by
  have hd := abs_le.mp (Rounding.abs_round_sub_le 53 x)
  rw [abs_of_nonneg h0] at hd
  have hd0 : 0 ≤ double x := Rounding.round_nonneg h0
  have hm := abs_le.mp (Rounding.abs_round_sub_le 53 (double x * 100))
  rw [abs_of_nonneg (by linarith)] at hm
  have hm0 : 0 ≤ double (double x * 100) := Rounding.round_nonneg (by linarith)
  have hw := abs_le.mp (hdecimal (double (double x * 100)))
  rw [abs_of_nonneg hm0] at hw
  change _ ≤ double x - x ∧ double x - x ≤ _ at hd
  change _ ≤ double (double x * 100) - double x * 100 ∧
    double (double x * 100) - double x * 100 ≤ _ at hm
  rw [abs_le]
  constructor <;> linarith

/-- **The percentage** that is printed is the exact one unless it is a tie. -/
theorem percent_double (hdecimal : ∀ d, |decimal d - d| ≤ |d| / 2 ^ 52) (hpk : p ≤ k)
    (hk0 : 0 < k) (hk : k < 2 ^ 31) (htie : ¬ Tie ((p : ℚ) / k)) :
    percent (decimal (double (double (p / k) * 100)) / 100) = percent (p / k) := by
  have hk' : (0 : ℚ) < k := by exact_mod_cast hk0
  have hfrac : (p : ℚ) / k * 10000 + 1 / 2 =
      ((20000 * p + k : ℤ) : ℚ) / ((2 * k : Nat) : ℚ) := by
    push_cast
    field_simp
    ring
  have hdvd : ¬ ((2 * k : Nat) : ℤ) ∣ 20000 * p + k := by
    rintro ⟨n, hn⟩
    refine htie ⟨n, ?_⟩
    rw [hfrac, hn]
    push_cast
    field_simp
  have herr := abs_decimal_sub_le hdecimal (x := p / k) (by positivity)
    ((div_le_one hk').mpr (by exact_mod_cast hpk))
  have hnear : |decimal (double (double (p / k) * 100)) / 100 * 10000 + 1 / 2 -
      ((20000 * p + k : ℤ) : ℚ) / ((2 * k : Nat) : ℚ)| < 1 / ((2 * k : Nat) : ℚ) := by
    rw [← hfrac]
    have hk31 : (k : ℚ) < 2 ^ 31 := by exact_mod_cast hk
    have hunit : (404 / 2 ^ 53 * 100 : ℚ) < 1 / ((2 * k : Nat) : ℚ) := by
      push_cast
      rw [lt_div_iff₀ (by positivity)]
      linarith
    obtain ⟨h1, h2⟩ := abs_le.mp herr
    rw [abs_lt]
    constructor <;> linarith
  have hfloor : ⌊decimal (double (double (p / k) * 100)) / 100 * 10000 + 1 / 2⌋ =
      ⌊(p : ℚ) / k * 10000 + 1 / 2⌋ := by
    rw [Rounding.floor_eq_of_near (by omega) hdvd hnear, hfrac, Rat.floor_intCast_div_natCast]
  change Rat.floor _ = Rat.floor _ at hfloor
  rw [percent, percent, hfloor]

/-- The line of a violation. -/
theorem text_rounded (hdecimal : ∀ d, |decimal d - d| ≤ |d| / 2 ^ 52) {D : Database String String}
    {s : Int} {t : ℚ} {a b c : String} (hviol : D.Violation s t a b c)
    (hsize : (D.single a).card < 2 ^ 31) (htie : ¬ Tie (bugLine D a b c).confidence) :
    text decimal (rounded (bugLine D a b c)) = (bugLine D a b c).text := by
  have hpercent := percent_double hdecimal (Finset.card_le_card (D.pair_subset a b))
    (Finset.card_pos.mpr ⟨c, hviol.mem⟩) hsize htie
  exact congrArg _ hpercent

end Percent

/-- The texts of the lines that are not ties. -/
def SameTexts (decimal : ℚ → ℚ) (exact : Except Fault (List BugLine)) : Prop :=
  ∀ out, exact = .ok out → ∀ line ∈ out, ¬ Tie line.confidence →
    text decimal (rounded line) = line.text

/--
**The texts agree.** With the bounds of `main_rounded`, and any decimal notation that is as near
to its `double` as two of them are to each other, every line printed has the text that the exact
confidence gives, unless that is halfway between two hundredths of a percent.
-/
theorem main_texts (ord : PrintOrder) (searchOrd : PartC.SearchOrder)
    (expandOrd : PartC.Expand.ExpandOrder) (e : Int) (text : List Char) (s : Int) (t : ℚ)
    (hbs : (blocks text).length < 2 ^ 31) {decimal : ℚ → ℚ}
    (hdecimal : ∀ d, |decimal d - d| ≤ |d| / 2 ^ 52) :
    SameTexts decimal (PartA.main ord text s t) ∧
    SameTexts decimal (PartC.main ord searchOrd e text s t) ∧
    SameTexts decimal (PartC.Expand.main ord expandOrd e text s t) ∧
    SameTexts decimal (PartC.SetExpand.main ord expandOrd text s t) := by
  have hcaller : ∀ a c, c ∈ callersOf (blocks text) a → ∃ b ∈ blocks text, c = b.caller := by
    intro a c hc
    obtain ⟨b, hb, hcaller, -⟩ := mem_sites.mp hc
    exact ⟨b, hb, hcaller⟩
  have hsites : ∀ a, ((siteDatabase (blocks text)).single a).card < 2 ^ 31 :=
    fun a => card_lt_of_callers hbs (hcaller a)
  refine ⟨?_, ?_, ?_, ?_⟩ <;> intro out hout line hline htie
  · rw [PartA.main_eq_run] at hout
    obtain ⟨a, b, c, hviol, rfl⟩ :=
      ((PartA.run_prints ord (blocks text) s t).mem_iff hout line).mp hline
    exact text_rounded hdecimal hviol (hsites a) htie
  · rw [PartC.main_eq_run] at hout
    obtain ⟨a, b, c, hviol, -, rfl⟩ :=
      ((PartC.run_prints ord searchOrd e (blocks text) s t).mem_iff hout line).mp hline
    exact text_rounded hdecimal hviol (hsites a) htie
  · obtain ⟨D, hD, hprints⟩ := PartC.Expand.prints_of_main_ok hout
    obtain ⟨a, b, c, hviol, rfl⟩ := (hprints.mem_iff hout line).mp hline
    exact text_rounded hdecimal hviol
      (card_lt_of_callers hbs fun c hc => exists_block_of_mem_keySet (hD a c hc).1) htie
  · obtain ⟨a, b, c, hviol, rfl⟩ :=
      ((PartC.SetExpand.main_prints_near ord expandOrd text s t).mem_iff hout line).mp hline
    refine text_rounded hdecimal hviol (card_lt_of_callers hbs fun c hc => ?_) htie
    rcases Finset.mem_union.mp hc with hc | hc
    · exact hcaller a c hc
    · classical
      exact exists_block_of_mem_keySet (Finset.mem_filter.mp hc).1

theorem main_texts_twoCallers : SameTexts id (PartA.main default twoCallers 1 (1 / 2)) :=
  (main_texts default ⟨fun _ => default, default⟩ default 1 twoCallers 1 (1 / 2)
    (by decide +kernel) fun d => by rw [id, sub_self, abs_zero]; positivity).1

end Pipair.Doubles
