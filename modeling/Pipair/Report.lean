import Pipair.Java
import Pipair.Library.Index
import Pipair.Library.Iteration
import Pipair.Library.Mining

/-!
# Printing the bugs of a location map

The programs that key `location` by sets share one `printBug`: a loop over the
keys with one function, inside it a loop over the keys with two, and for each
pair that meets the thresholds a loop over the callers that have the function
without the pair. They differ in one place, whether a bug line may still be
suppressed; `printBugWith` takes that test as a parameter.

`printBugWith_prints` is the result about it: over a location that records a
`Mining.Database`, it prints the violations of that database that are not
suppressed, each once.
-/

namespace Pipair

open Mining

/-- The callers of each function and of each pair of functions. -/
abbrev Location := Index (Finset String) String

/-- A printed line. -/
structure BugLine where
  function : String
  caller : String
  pair : String × String
  support : Nat
  confidence : ℚ
deriving DecidableEq

/-- The argument of `println`, with the percentage of the exact confidence. -/
def BugLine.text (l : BugLine) : String :=
  "bug: " ++ l.function ++ " in " ++ l.caller ++ ", pair: (" ++ l.pair.1 ++ ", " ++ l.pair.2 ++
    "), support: " ++ toString l.support ++ ", confidence: " ++ percent l.confidence

/-- The orders in which the loops of `printBug` are run: over `location.keySet()`
for `singleKey`, over it again for `pipairKey`, over `locationTemp`, and the
order of the elements in `toArray`. -/
structure PrintOrder where
  singleKeys : Iteration (Finset String)
  pipairKeys : Finset String → Iteration (Finset String)
  callers : Finset String → Finset String → Iteration String
  toArray : Iteration String

noncomputable instance : Inhabited PrintOrder :=
  ⟨⟨default, fun _ => default, fun _ _ => default, default⟩⟩

/-- An order of the loops: keys and callers with the given names come in the order of
the names. -/
noncomputable def printing (names : List String) : PrintOrder where
  singleKeys := (Iteration.arbitrary _).follow (names.flatMap fun a => names.map fun b => {a, b})
  pipairKeys _ := (Iteration.arbitrary _).follow (names.flatMap fun a => names.map fun b => {a, b})
  callers _ _ := (Iteration.arbitrary String).follow names
  toArray := (Iteration.arbitrary String).follow names

/-- `printBug`, with a test that may suppress a line: what it prints for a pair
that meets the thresholds. The orders are those of `toArray` and of the loop over
`locationTemp`. -/
def printCallers (suppressed : Finset String → Finset String → String → Except Fault Bool)
    (toArray callers : Iteration String) (location : Location)
    (singleKey pipairKey : Finset String) (singleKeyStr : String) (supportPair : Nat)
    (confidencePair : ℚ) : Except Fault (List BugLine) := do
  let pairStr1 ← element (toArray.list pipairKey) 0
  let pairStr2 ← element (toArray.list pipairKey) 1
  let pair := lexicographic pairStr1 pairStr2
  -- location for pipair should take place of single function
  let locationTemp := (← deref (location.lookup singleKey)) \ (← deref (location.lookup pipairKey))
  forEach (fun locationTempStr => do
      let flag ← suppressed singleKey pipairKey locationTempStr
      if flag then pure []
      else pure [⟨singleKeyStr, locationTempStr, pair, supportPair, confidencePair⟩])
    (callers.list locationTemp)

/-- The loop over `pipairKey` for a key with one function. -/
def printPairs (suppressed : Finset String → Finset String → String → Except Fault Bool)
    (ord : PrintOrder) (location : Location) (support : Int) (confidence : ℚ)
    (singleKey : Finset String) : Except Fault (List BugLine) := do
  let supportKey := (← deref (location.lookup singleKey)).card
  let singleKeyStr ← element (ord.toArray.list singleKey) 0
  forEach (fun pipairKey =>
      if 1 < pipairKey.card ∧ singleKeyStr ∈ pipairKey then do
        let supportPair := (← deref (location.lookup pipairKey)).card
        let confidencePair : ℚ := supportPair / supportKey
        -- check pipair to meet threshold support and confidence
        if support ≤ supportKey ∧ support ≤ supportPair ∧ confidencePair < 1 ∧
            confidence ≤ confidencePair then
          printCallers suppressed ord.toArray (ord.callers singleKey pipairKey) location
            singleKey pipairKey singleKeyStr supportPair confidencePair
        else pure []
      else pure [])
    ((ord.pipairKeys singleKey).list location.keys)

def printBugWith (suppressed : Finset String → Finset String → String → Except Fault Bool)
    (ord : PrintOrder) (location : Location) (support : Int) (confidence : ℚ) :
    Except Fault (List BugLine) :=
  forEach (fun singleKey =>
      if singleKey.card = 1 then
        printPairs suppressed ord location support confidence singleKey
      else pure [])
    (ord.singleKeys.list location.keys)

-- ---------------------------------------------------------------------------
-- A location records a database
-- ---------------------------------------------------------------------------

/-- The map `location` holds the places of the functions and pairs of `D`, and
no other keys. -/
structure Records (location : Location) (D : Database String String) : Prop where
  keys : ∀ k ∈ location.keys, ∃ a b, k = {a, b}
  single : ∀ a, location.get {a} = D.single a
  pair : ∀ a b, a ≠ b → location.get {a, b} = D.pair a b

/-- The line that reports the violation of the rule `{a, b}` for `a` at `c`. -/
def bugLine (D : Database String String) (a b c : String) : BugLine :=
  ⟨a, c, lexicographic a b, (D.pair a b).card, Mining.confidence (D.pair a b) (D.single a)⟩

theorem bugLine_inj {D : Database String String} {a b c a' b' c' : String}
    (h : bugLine D a b c = bugLine D a' b' c') : a = a' ∧ b = b' ∧ c = c' := by
  simp only [bugLine, BugLine.mk.injEq] at h
  -- function and caller stand in the line; the partner is the other name of its pair
  obtain ⟨rfl, rfl, hpair, -, -⟩ := h
  exact ⟨rfl, lexicographic_inj hpair, rfl⟩

theorem pair_right_inj {a b b' : String} (h : ({a, b} : Finset String) = {a, b'}) : b' = b := by
  have hb : b ∈ ({a, b'} : Finset String) := h ▸ by simp
  have hb' : b' ∈ ({a, b} : Finset String) := h ▸ by simp
  simp only [Finset.mem_insert, Finset.mem_singleton] at hb hb'
  rcases hb with rfl | rfl
  · exact hb'.elim id id
  · rfl

namespace Records

variable {location : Location} {D : Database String String}

/-- A pair that occurs is a key, and so are its functions. -/
theorem bound (h : Records location D) {a b : String} (hab : a ≠ b)
    (hne : (D.pair a b).Nonempty) : {a} ∈ location.keys ∧ {a, b} ∈ location.keys := by
  rw [Index.mem_keys_iff, Index.mem_keys_iff, h.single, h.pair a b hab]
  exact ⟨hne.mono (D.pair_subset a b), hne⟩

/-- A key with `a` and more than one function is a pair `{a, b}`. -/
theorem exists_partner (h : Records location D) {k : Finset String} (hk : k ∈ location.keys)
    (hcard : 1 < k.card) {a : String} (ha : a ∈ k) : ∃ b, a ≠ b ∧ k = {a, b} := by
  obtain ⟨x, y, rfl⟩ := h.keys k hk
  -- a key is `{x, y}`, and `x = y` would leave it one function
  have hxy : x ≠ y := by
    rintro rfl
    simp at hcard
  simp only [Finset.mem_insert, Finset.mem_singleton] at ha
  rcases ha with rfl | rfl
  · exact ⟨y, hxy, rfl⟩
  · exact ⟨x, hxy.symm, Finset.pair_comm x a⟩

end Records

-- ---------------------------------------------------------------------------
-- What is printed
-- ---------------------------------------------------------------------------

section Print

variable {suppressed : Finset String → Finset String → String → Except Fault Bool}
  {ord : PrintOrder} {location : Location}
  {D : Database String String} {s : Int} {t : ℚ}

theorem printCallers_prints (verdict : String → String → String → Bool)
    {toArray callers : Iteration String} (hloc : Records location D) {a b : String}
    (hab : a ≠ b) (hne : (D.pair a b).Nonempty)
    (hv : ∀ c ∈ D.single a, suppressed {a} {a, b} c = .ok (verdict a b c)) :
    Prints (printCallers suppressed toArray callers location {a} {a, b} a (D.pair a b).card
        (Mining.confidence (D.pair a b) (D.single a)))
      fun line => ∃ c, (c ∈ D.single a ∧ c ∉ D.pair a b) ∧ verdict a b c = false ∧
        line = bugLine D a b c := by
  obtain ⟨ha, hpair⟩ := hloc.bound hab hne
  -- whichever name `toArray` gives first, the line shows the smaller one first
  obtain ⟨x, y, harray, hxy⟩ : ∃ x y, toArray.list {a, b} = [x, y] ∧
      lexicographic x y = lexicographic a b := by
    rcases toArray.list_pair hab with h | h
    · exact ⟨a, b, h, rfl⟩
    · exact ⟨b, a, h, lexicographic_comm b a⟩
  simp only [printCallers, harray, element_zero, element_one, ok_bind, hxy,
    Index.lookup_of_mem_keys ha, Index.lookup_of_mem_keys hpair, deref_some, hloc.single,
    hloc.pair a b hab]
  refine (Prints.loop (P := fun c line => verdict a b c = false ∧ line = bugLine D a b c)
    (Iteration.nodup_list ..) ?round ?once).congr ?same
  case round =>
    intro c hc
    rw [Iteration.mem_list, Finset.mem_sdiff] at hc
    rw [hv c hc.1, ok_bind]
    cases hvc : verdict a b c with
    | true => exact Prints.nil (by simp)
    | false => exact (Prints.single _).congr fun x => by simp [bugLine]
  case once =>
    rintro c - c' - x ⟨-, rfl⟩ ⟨-, h⟩
    exact (bugLine_inj h).2.2
  case same =>
    intro x
    simp only [Iteration.mem_list, Finset.mem_sdiff]

/-- A pair that meets the thresholds has its callers printed, any other pair
nothing: the violations of the rule for `a` with this pair. -/
theorem printQualified_prints (verdict : String → String → String → Bool)
    {toArray callers : Iteration String} (hloc : Records location D) {a b : String}
    (hab : a ≠ b) (hne : (D.pair a b).Nonempty)
    (hv : ∀ c ∈ D.single a, suppressed {a} {a, b} c = .ok (verdict a b c)) :
    Prints
      (if s ≤ (D.single a).card ∧ s ≤ (D.pair a b).card ∧
          Mining.confidence (D.pair a b) (D.single a) < 1 ∧
          t ≤ Mining.confidence (D.pair a b) (D.single a) then
        printCallers suppressed toArray callers location {a} {a, b} a (D.pair a b).card
          (Mining.confidence (D.pair a b) (D.single a))
      else pure [])
      fun line => ∃ b' c, ({a, b} : Finset String) = {a, b'} ∧ D.Violation s t a b' c ∧
        verdict a b' c = false ∧ line = bugLine D a b' c := by
  split
  · next hq =>
    obtain ⟨hs, hp, hlt, ht⟩ := hq
    refine (printCallers_prints verdict hloc hab hne hv).congr fun x => ?_
    constructor
    · intro h
      obtain ⟨c, ⟨hc, hn⟩, hvc, hx⟩ := h
      exact ⟨b, c, rfl, ⟨hab, hne, ⟨hs, hp, hlt, ht⟩, hc, hn⟩, hvc, hx⟩
    · intro h
      obtain ⟨b', c, hkey, hviol, hvc, hx⟩ := h
      obtain rfl := pair_right_inj hkey
      exact ⟨c, ⟨hviol.mem, hviol.notMem⟩, hvc, hx⟩
  · next hq =>
    refine Prints.nil fun x h => ?_
    obtain ⟨b', c, hkey, hviol, -, -⟩ := h
    obtain rfl := pair_right_inj hkey
    obtain ⟨hs, hp, hlt, ht⟩ := hviol.qualifies
    exact hq ⟨hs, hp, hlt, ht⟩

/-- The loop over the pairs prints the violations of the rules for `a`. -/
theorem printPairs_prints (verdict : String → String → String → Bool)
    (hloc : Records location D) {a : String} (ha : {a} ∈ location.keys)
    (hv : ∀ b c, a ≠ b → c ∈ D.single a → suppressed {a} {a, b} c = .ok (verdict a b c)) :
    Prints (printPairs suppressed ord location s t {a})
      fun line => ∃ b c, D.Violation s t a b c ∧ verdict a b c = false ∧
        line = bugLine D a b c := by
  simp only [printPairs, Index.lookup_of_mem_keys ha, deref_some, ok_bind,
    Iteration.list_singleton, element_zero, hloc.single]
  refine (Prints.loop (P := fun k line => ∃ b c, k = {a, b} ∧ D.Violation s t a b c ∧
    verdict a b c = false ∧ line = bugLine D a b c) (Iteration.nodup_list ..)
    ?round ?once).congr ?same
  case round =>
    intro k hk
    rw [Iteration.mem_list] at hk
    -- keys that are not pairs with `a` print nothing
    by_cases hcond : 1 < k.card ∧ a ∈ k
    · obtain ⟨b, hab, rfl⟩ := hloc.exists_partner hk hcond.1 hcond.2
      have hne : (D.pair a b).Nonempty := by
        rw [← hloc.pair a b hab]
        exact Index.mem_keys_iff.mp hk
      rw [if_pos hcond, Index.lookup_of_mem_keys hk, deref_some, ok_bind, hloc.pair a b hab]
      exact printQualified_prints verdict hloc hab hne fun c => hv b c hab
    · rw [if_neg hcond]
      refine Prints.nil ?_
      rintro x ⟨b, c, rfl, hviol, -, -⟩
      exact hcond ⟨by rw [Finset.card_pair hviol.ne]; omega, by simp⟩
  case once =>
    rintro k - k' - x ⟨b, c, rfl, -, -, rfl⟩ ⟨b', c', rfl, -, -, h⟩
    rw [(bugLine_inj h).2.1]
  case same =>
    intro x
    constructor
    · intro h
      obtain ⟨k, -, b, c, -, hviol, hvc, hx⟩ := h
      exact ⟨b, c, hviol, hvc, hx⟩
    · intro h
      obtain ⟨b, c, hviol, hvc, hx⟩ := h
      refine ⟨{a, b}, ?_, b, c, rfl, hviol, hvc, hx⟩
      rw [Iteration.mem_list]
      exact (hloc.bound hviol.ne hviol.occurs).2

/-- **What is printed.** Over a location that records `D`, the violations of `D`
that are not suppressed, each once, whatever the order of the loops. -/
theorem printBugWith_prints (verdict : String → String → String → Bool)
    (hloc : Records location D)
    (hv : ∀ a b c, a ≠ b → c ∈ D.single a → suppressed {a} {a, b} c = .ok (verdict a b c)) :
    Prints (printBugWith suppressed ord location s t)
      fun line => ∃ a b c, D.Violation s t a b c ∧ verdict a b c = false ∧
        line = bugLine D a b c := by
  unfold printBugWith
  refine (Prints.loop (P := fun k line => ∃ a b c, k = {a} ∧ D.Violation s t a b c ∧
    verdict a b c = false ∧ line = bugLine D a b c) (Iteration.nodup_list ..)
    ?round ?once).congr ?same
  case round =>
    intro k hk
    rw [Iteration.mem_list] at hk
    -- keys with two functions print nothing here
    by_cases hcard : k.card = 1
    · obtain ⟨a, rfl⟩ := Finset.card_eq_one.mp hcard
      rw [if_pos hcard]
      refine (printPairs_prints verdict hloc hk (fun b c => hv a b c)).congr fun x => ?_
      constructor
      · intro h
        obtain ⟨b, c, h⟩ := h
        exact ⟨a, b, c, rfl, h⟩
      · intro h
        obtain ⟨a', b, c, hkey, h⟩ := h
        obtain rfl := Finset.singleton_injective hkey
        exact ⟨b, c, h⟩
    · rw [if_neg hcard]
      refine Prints.nil ?_
      rintro x ⟨a, b, c, rfl, -⟩
      exact hcard (Finset.card_singleton a)
  case once =>
    rintro k - k' - x ⟨a, b, c, rfl, -, -, rfl⟩ ⟨a', b', c', rfl, -, -, h⟩
    rw [(bugLine_inj h).1]
  case same =>
    intro x
    constructor
    · intro h
      obtain ⟨k, -, a, b, c, -, h⟩ := h
      exact ⟨a, b, c, h⟩
    · intro h
      obtain ⟨a, b, c, hviol, h⟩ := h
      refine ⟨{a}, ?_, a, b, c, rfl, hviol, h⟩
      rw [Iteration.mem_list]
      exact (hloc.bound hviol.ne hviol.occurs).1

/-- A program that suppresses no line prints all of them. -/
theorem printBugWith_prints_all (hloc : Records location D) :
    Prints (printBugWith (fun _ _ _ => .ok false) ord location s t)
      fun line => ∃ a b c, D.Violation s t a b c ∧ line = bugLine D a b c := by
  refine (printBugWith_prints (fun _ _ _ => false) hloc fun _ _ _ _ _ => rfl).congr
    fun line => ?_
  simp only [true_and]

end Print

end Pipair
