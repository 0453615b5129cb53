import Pipair.Report
import Pipair.Sites

/-!
# Part A

`Group63/pi/partA/pipair_java.java`. The map `location` is filled while the call
graph is read: a callee is paired with the callees seen before it in its block.

The invariant of a block (`Paired`) says what `location` holds after every
callee line: what it held before the block, and the caller under every pair of
the callees seen so far, a function paired with itself included.
-/

namespace Pipair.PartA

open Mining

/-- The static maps of the program. -/
structure State where
  location : Location
  nearByCallees : Finset String

def addValueToMap (st : State) (addValue addLocation : String) : State :=
  -- check same addvalue
  if addValue ∈ st.nearByCallees then st
  else
    -- update pair function and its callers
    let location := st.location.addEach st.nearByCallees (fun key => {addValue, key}) addLocation
    -- update single function and its callers
    { st with location := location.add {addValue} addLocation }

/-- What `main` does with the lines it reads. -/
def actions : Actions State where
  header st := { st with nearByCallees := ∅ }
  callee st callee caller :=
    let st := addValueToMap st callee caller
    { st with nearByCallees := insert callee st.nearByCallees }
  footer st _ := st

def init : State := ⟨Index.empty, ∅⟩

/-- Part A suppresses no line. -/
def printBug : PrintOrder → Location → Int → ℚ → Except Fault (List BugLine) :=
  printBugWith fun _ _ _ => .ok false

/-- The blocks of a call graph, then the bugs. -/
def run (ord : PrintOrder) (bs : List Block) (support : Int) (confidence : ℚ) :
    Except Fault (List BugLine) :=
  printBug ord (bs.foldl actions.runBlock init).location support confidence

def main (ord : PrintOrder) (text : List Char) (support : Int) (confidence : ℚ) :
    Except Fault (List BugLine) :=
  printBug ord (scanLoop actions text init).location support confidence

theorem main_eq_run (ord : PrintOrder) (text : List Char) (support : Int) (confidence : ℚ) :
    main ord text support confidence = run ord (blocks text) support confidence := by
  rw [main, run, scanLoop_eq_blocks]

-- ---------------------------------------------------------------------------
-- The location map
-- ---------------------------------------------------------------------------

/-- `k` is the key of two of the functions `N`, which may be the same. -/
def PairKey (N : Finset String) (k : Finset String) : Prop := ∃ x ∈ N, ∃ y ∈ N, k = {x, y}

theorem PairKey.insert {N k : Finset String} {a : String} :
    PairKey (insert a N) k ↔ PairKey N k ∨ (∃ y ∈ N, k = {a, y}) ∨ k = {a} := by
  simp only [PairKey, Finset.exists_mem_insert]
  constructor
  · rintro ((h | ⟨y, hy, h⟩) | ⟨x, hx, h | ⟨y, hy, h⟩⟩)
    · exact Or.inr (Or.inr (by rw [h, Finset.pair_eq_singleton]))
    · exact Or.inr (Or.inl ⟨y, hy, h⟩)
    · exact Or.inr (Or.inl ⟨x, hx, h.trans (Finset.pair_comm x a)⟩)
    · exact Or.inl ⟨x, hx, y, hy, h⟩
  · rintro (⟨x, hx, y, hy, h⟩ | ⟨y, hy, h⟩ | h)
    · exact Or.inr ⟨x, hx, Or.inr ⟨y, hy, h⟩⟩
    · exact Or.inl (Or.inr ⟨y, hy, h⟩)
    · exact Or.inl (Or.inl (by rw [h, Finset.pair_eq_singleton]))

/-- Inside a block of `caller`, begun with the map `m`: the map holds what `m`
held, and the caller under every key of the callees seen so far. -/
def Paired (m : Location) (caller : String) (st : State) : Prop :=
  ∀ k c, c ∈ st.location.get k ↔
    c ∈ m.get k ∨ (PairKey st.nearByCallees k ∧ c = caller)

theorem Paired.header (caller : String) (st : State) :
    Paired st.location caller (actions.header st) := by
  intro k c
  simp [actions, PairKey]

/-- **Step lemma.** A callee line keeps the invariant. -/
theorem Paired.callee {m : Location} {caller : String} {st : State} (h : Paired m caller st)
    (callee : String) : Paired m caller (actions.callee st callee caller) := by
  intro k c
  -- a repeated callee adds no key
  by_cases hmem : callee ∈ st.nearByCallees
  · simp only [actions, addValueToMap, if_pos hmem, Finset.insert_eq_of_mem hmem]
    exact h k c
  · simp only [actions, addValueToMap, if_neg hmem, Index.mem_get_add, Index.mem_get_addEach,
      PairKey.insert, h k c, or_and_right, or_assoc]

theorem callees_nearBy (caller : String) (cs : List String) (st : State) :
    (cs.foldl (fun st callee => actions.callee st callee caller) st).nearByCallees =
      st.nearByCallees ∪ cs.toFinset := by
  induction cs generalizing st with
  | nil => simp
  | cons a cs ih =>
    rw [List.foldl_cons, ih]
    have hstep : (actions.callee st a caller).nearByCallees = insert a st.nearByCallees := by
      simp only [actions, addValueToMap]
      split <;> rfl
    rw [hstep, List.toFinset_cons, Finset.insert_union, Finset.union_insert]

/-- **A block** puts its caller under the keys of its callees. -/
theorem mem_get_runBlock (st : State) (b : Block) (k : Finset String) (c : String) :
    c ∈ (actions.runBlock st b).location.get k ↔
      c ∈ st.location.get k ∨ (PairKey b.callees.toFinset k ∧ c = b.caller) := by
  -- the invariant, along the callee lines
  have hinv : ∀ (cs : List String) (st' : State), Paired st.location b.caller st' →
      Paired st.location b.caller
        (cs.foldl (fun st callee => actions.callee st callee b.caller) st') := by
    intro cs
    induction cs with
    | nil => exact fun _ h => h
    | cons a cs ih => exact fun st' h => ih _ (h.callee a)
  have h := hinv b.callees _ (Paired.header b.caller st) k c
  rw [callees_nearBy] at h
  simpa [actions, Actions.runBlock] using h

/-- **A run** puts under a key the callers that have a block with that key. -/
theorem mem_get_location (bs : List Block) (k : Finset String) (c : String) :
    c ∈ (bs.foldl actions.runBlock init).location.get k ↔
      ∃ b ∈ bs, PairKey b.callees.toFinset k ∧ c = b.caller := by
  rw [Index.mem_get_foldl State.location mem_get_runBlock]
  simp [init]

theorem pairKey_pair {N : Finset String} {a b : String} : PairKey N {a, b} ↔ a ∈ N ∧ b ∈ N := by
  constructor
  · intro h
    obtain ⟨x, hx, y, hy, h⟩ := h
    -- the functions of a key are those it was made of
    have ha : a ∈ ({x, y} : Finset String) := h ▸ by simp
    have hb : b ∈ ({x, y} : Finset String) := h ▸ by simp
    simp only [Finset.mem_insert, Finset.mem_singleton] at ha hb
    exact ⟨by rcases ha with rfl | rfl <;> assumption, by rcases hb with rfl | rfl <;> assumption⟩
  · intro h
    obtain ⟨ha, hb⟩ := h
    exact ⟨a, ha, b, hb, rfl⟩

/-- **The location map of a call graph records where functions are called.** -/
theorem records_location (bs : List Block) :
    Records (bs.foldl actions.runBlock init).location (siteDatabase bs) where
  keys k hk := by
    obtain ⟨c, hc⟩ := Index.mem_keys_iff.mp hk
    obtain ⟨b, -, ⟨x, -, y, -, h⟩, -⟩ := (mem_get_location bs k c).mp hc
    exact ⟨x, y, h⟩
  single a := by
    ext c
    rw [mem_get_location, ← Finset.pair_eq_singleton]
    simp only [pairKey_pair, List.mem_toFinset, siteDatabase, callersOf, mem_sites]
    constructor
    · intro h
      obtain ⟨b, hb, ⟨h, -⟩, hc⟩ := h
      exact ⟨b, hb, hc, h⟩
    · intro h
      obtain ⟨b, hb, hc, h⟩ := h
      exact ⟨b, hb, ⟨h, h⟩, hc⟩
  pair a b _ := by
    ext c
    rw [mem_get_location]
    simp only [pairKey_pair, List.mem_toFinset, siteDatabase, callersOfBoth, mem_sites]
    constructor
    · intro h
      obtain ⟨b, hb, h, hc⟩ := h
      exact ⟨b, hb, hc, h⟩
    · intro h
      obtain ⟨b, hb, hc, h⟩ := h
      exact ⟨b, hb, h, hc⟩

/-- Part A prints the violations of the call graph, each once. -/
theorem run_prints (ord : PrintOrder) (bs : List Block) (s : Int) (t : ℚ) :
    Prints (run ord bs s t) fun line =>
      ∃ a b c, (siteDatabase bs).Violation s t a b c ∧ line = bugLine (siteDatabase bs) a b c :=
  printBugWith_prints_all (records_location bs)

/--
**Part A, whole run.** Whatever the blocks, the thresholds and the orders of the
loops, the run succeeds and prints one line for each function `a`, each partner
`b` and each caller `c` such that

1. some caller calls `a` and `b` in one block,
2. `a` and the pair meet the thresholds, and the pair does not occur at all the
   callers of `a`,
3. `c` calls `a`, and in no block together with `b`,

and prints no other line. Lines of different triples are different.
-/
theorem run_reports (ord : PrintOrder) (bs : List Block) (s : Int) (t : ℚ) :
    (Prints (run ord bs s t) fun line =>
      ∃ a b c, a ≠ b ∧ (callersOfBoth bs a b).Nonempty ∧
        s ≤ (callersOf bs a).card ∧ s ≤ (callersOfBoth bs a b).card ∧
        t ≤ ((callersOfBoth bs a b).card : ℚ) / (callersOf bs a).card ∧
        ((callersOfBoth bs a b).card : ℚ) / (callersOf bs a).card < 1 ∧
        c ∈ callersOf bs a ∧ c ∉ callersOfBoth bs a b ∧
        line = bugLine (siteDatabase bs) a b c) ∧
    ∀ a b c a' b' c', bugLine (siteDatabase bs) a b c = bugLine (siteDatabase bs) a' b' c' →
      a = a' ∧ b = b' ∧ c = c' := by
  refine ⟨(run_prints ord bs s t).congr fun line => ?_, fun _ _ _ _ _ _ h => bugLine_inj h⟩
  constructor
  · intro h
    obtain ⟨a, b, c, ⟨hab, hocc, ⟨h1, h2, h3, h4⟩, hc, hn⟩, hline⟩ := h
    exact ⟨a, b, c, hab, hocc, h1, h2, h4, h3, hc, hn, hline⟩
  · intro h
    obtain ⟨a, b, c, hab, hocc, h1, h2, h4, h3, hc, hn, hline⟩ := h
    exact ⟨a, b, c, ⟨hab, hocc, ⟨h1, h2, h3, h4⟩, hc, hn⟩, hline⟩

/-- The expected output for `test2` with support 3 and confidence 65%. -/
example :
    (run (printing ["A", "B", "C", "D", "main", "printf", "scope1", "scope2", "scope3", "scope4",
        "scope5", "scope6"]) test2 3 (65 / 100)).map (List.map BugLine.text) = .ok
      ["bug: A in scope2, pair: (A, B), support: 3, confidence: 75.00%",
        "bug: A in scope3, pair: (A, D), support: 3, confidence: 75.00%",
        "bug: B in scope3, pair: (B, D), support: 4, confidence: 80.00%",
        "bug: D in scope2, pair: (B, D), support: 4, confidence: 80.00%"] := by
  decide +kernel

end Pipair.PartA
