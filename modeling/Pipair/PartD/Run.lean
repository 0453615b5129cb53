import Pipair.Java
import Pipair.Sites
import Pipair.Library.Index
import Pipair.Library.Iteration
import Pipair.Library.Once

/-!
# Part D, pairs in order

`Group63/pi/partD/pipair_java.java`. Here `location` is keyed by lists: a callee
is paired with the callees called before it in its block, repetitions included.
When both orders of a pair are violated at a caller, one line reports both; a
list of rendered strings, `visit`, keeps the second order from being reported
again.

The invariant of a block (`Listed`) says what `location` holds after every
callee line: what it held before, and the caller under every list of one or two
functions called in that order so far.
-/

namespace Pipair.PartD

open Mining

/-- The callers of each function and of each ordered pair of functions. -/
abbrev Location := Index (List String) String

/-- The static maps of the program. -/
structure State where
  location : Location
  nearByCallees : List String

def addValueToMap (st : State) (addValue addLocation : String) : State :=
  -- update pair function and its callers
  let location :=
    st.nearByCallees.foldl (fun location key => location.add [key, addValue] addLocation)
      st.location
  -- update single function and its callers
  { st with location := location.add [addValue] addLocation }

/-- What `main` does with the lines it reads. -/
def actions : Actions State where
  header st := { st with nearByCallees := [] }
  callee st callee caller :=
    let st := addValueToMap st callee caller
    { st with nearByCallees := st.nearByCallees ++ [callee] }
  footer st _ := st

def init : State := ⟨Index.empty, []⟩

-- ---------------------------------------------------------------------------
-- Printing
-- ---------------------------------------------------------------------------

/-- A pair as it is reported in a line. -/
structure Reported where
  pair : String × String
  support : Nat
  confidence : ℚ
deriving DecidableEq

/-- A printed line: with one pair, or with a pair and its reverse. -/
inductive BugLine
  | single (function caller : String) (pair : Reported)
  | combined (function caller : String) (pair pair2 : Reported)
deriving DecidableEq

/-- `"(" + x + ", " + y + ")"` -/
def rendered (x y : String) : String := "(" ++ x ++ ", " ++ y ++ ")"

/-- The orders in which the loops of `printBug` are run: over `location.keySet()`
for `singleKey`, over it again for `pipairKey`, and over `locationTemp`. -/
structure PrintOrder where
  singleKeys : Iteration (List String)
  pipairKeys : List String → Iteration (List String)
  callers : List String → List String → Iteration String

noncomputable instance : Inhabited PrintOrder :=
  ⟨⟨default, fun _ => default, fun _ _ => default⟩⟩

/-- The body of the loop over `locationTemp`. -/
def printCaller (location : Location) (support : Int) (confidence : ℚ)
    (singleKey pipairKey : List String) (singleKeyStr : String) (supportKey supportPair : Nat)
    (confidencePair : ℚ) (locationTempStr : String) (visit : List (List String)) :
    Except Fault (List (List String) × List BugLine) := do
  let x ← element pipairKey 0
  let y ← element pipairKey 1
  -- pipairKey2 is the pipairKey in reverse order
  let pipairKey2 := [y, x]
  let pair : Reported := ⟨(x, y), supportPair, confidencePair⟩
  -- print other bug
  let other := (visit, [BugLine.single singleKeyStr locationTempStr pair])
  match location.lookup pipairKey2 with
  | none => pure other
  | some locationTemp2 =>
    if locationTemp2.Nonempty ∧ y ≠ x then
      let supportPair2 := locationTemp2.card
      let confidencePair2 : ℚ := supportPair2 / supportKey
      if support ≤ supportKey ∧ support ≤ supportPair2 ∧ confidencePair2 < 1 ∧
          confidence ≤ confidencePair2 then
        let locationTempComp := (← deref (location.lookup singleKey)) \ locationTemp2
        if locationTempStr ∈ locationTempComp then
          if [singleKeyStr, rendered y x, locationTempStr] ∈ visit then pure (visit, [])
          else
            pure (visit ++ [[singleKeyStr, rendered x y, locationTempStr]],
              [.combined singleKeyStr locationTempStr pair ⟨(y, x), supportPair2, confidencePair2⟩])
        else pure other
      else pure other
    else pure other

/-- The loop over `pipairKey` for a key with one function. -/
def printPairs (ord : PrintOrder) (location : Location) (support : Int) (confidence : ℚ)
    (singleKey : List String) (visit : List (List String)) :
    Except Fault (List (List String) × List BugLine) := do
  let supportKey := (← deref (location.lookup singleKey)).card
  let singleKeyStr ← element singleKey 0
  forEachWith (fun pipairKey visit =>
      if 1 < pipairKey.length ∧ singleKeyStr ∈ pipairKey then do
        let supportPair := (← deref (location.lookup pipairKey)).card
        let confidencePair : ℚ := supportPair / supportKey
        -- check pipair to meet threshold support and confidence
        if support ≤ supportKey ∧ support ≤ supportPair ∧ confidencePair < 1 ∧
            confidence ≤ confidencePair then
          -- location for pipair should take place of single function
          let locationTemp :=
            (← deref (location.lookup singleKey)) \ (← deref (location.lookup pipairKey))
          forEachWith (printCaller location support confidence singleKey pipairKey singleKeyStr
            supportKey supportPair confidencePair)
            ((ord.callers singleKey pipairKey).list locationTemp) visit
        else pure (visit, [])
      else pure (visit, []))
    ((ord.pipairKeys singleKey).list location.keys) visit

def printBug (ord : PrintOrder) (location : Location) (support : Int) (confidence : ℚ) :
    Except Fault (List BugLine) := do
  let (_, out) ← forEachWith (fun key visit =>
      if key.length = 1 then printPairs ord location support confidence key visit
      else pure (visit, []))
    (ord.singleKeys.list location.keys) []
  pure out

/-- The blocks of a call graph, then the bugs. -/
def run (ord : PrintOrder) (bs : List Block) (support : Int) (confidence : ℚ) :
    Except Fault (List BugLine) :=
  printBug ord (bs.foldl actions.runBlock init).location support confidence

def main (ord : PrintOrder) (text : List Char) (support : Int) (confidence : ℚ) :
    Except Fault (List BugLine) :=
  printBug ord (scanLoop actions text init).location support confidence

theorem main_eq_run (ord : PrintOrder) (text : List Char) (support : Int) (confidence : ℚ) :
    main ord text support confidence = run ord (blocks text) support confidence := by
  rw [main, run, scanLoop_eq_blocks]

-- ---------------------------------------------------------------------------
-- The location map
-- ---------------------------------------------------------------------------

/-- `k` lists one or two of the functions `N`, in their order. -/
def ListKey (N : List String) (k : List String) : Prop :=
  (∃ x ∈ N, k = [x]) ∨ ∃ x y, [x, y].Sublist N ∧ k = [x, y]

theorem pair_sublist_append {N : List String} {x y a : String} :
    [x, y].Sublist (N ++ [a]) ↔ [x, y].Sublist N ∨ (x ∈ N ∧ y = a) := by
  rw [List.sublist_append_iff]
  constructor
  · intro h
    obtain ⟨l, m, h, hl, hm⟩ := h
    -- the last call is in the sublist or not
    rcases List.sublist_singleton.mp hm with rfl | rfl
    · rw [List.append_nil] at h
      exact Or.inl (h ▸ hl)
    · obtain ⟨rfl, h⟩ := List.append_inj' (show [x] ++ [y] = l ++ [a] from h) rfl
      exact Or.inr ⟨List.singleton_sublist.mp hl, by simpa using h⟩
  · rintro (h | ⟨hx, rfl⟩)
    · exact ⟨[x, y], [], by simp, h, List.nil_sublist _⟩
    · exact ⟨[x], [y], rfl, List.singleton_sublist.mpr hx, List.Sublist.refl _⟩

theorem ListKey.append {N k : List String} {a : String} :
    ListKey (N ++ [a]) k ↔ ListKey N k ∨ (∃ x ∈ N, k = [x, a]) ∨ k = [a] := by
  simp only [ListKey, List.mem_append, List.mem_singleton, pair_sublist_append]
  constructor
  · rintro (⟨x, hx | rfl, rfl⟩ | ⟨x, y, h | ⟨hx, rfl⟩, rfl⟩)
    · exact Or.inl (Or.inl ⟨x, hx, rfl⟩)
    · exact Or.inr (Or.inr rfl)
    · exact Or.inl (Or.inr ⟨x, y, h, rfl⟩)
    · exact Or.inr (Or.inl ⟨x, hx, rfl⟩)
  · rintro ((⟨x, hx, rfl⟩ | ⟨x, y, h, rfl⟩) | ⟨x, hx, rfl⟩ | rfl)
    · exact Or.inl ⟨x, Or.inl hx, rfl⟩
    · exact Or.inr ⟨x, y, Or.inl h, rfl⟩
    · exact Or.inr ⟨x, a, Or.inr ⟨hx, rfl⟩, rfl⟩
    · exact Or.inl ⟨a, Or.inr rfl, rfl⟩

/-- Inside a block of `caller`, begun with the map `m`: the map holds what `m`
held, and the caller under every list of the functions called so far. -/
def Listed (m : Location) (caller : String) (st : State) : Prop :=
  ∀ k c, c ∈ st.location.get k ↔ c ∈ m.get k ∨ (ListKey st.nearByCallees k ∧ c = caller)

theorem Listed.header (caller : String) (st : State) :
    Listed st.location caller (actions.header st) := by
  intro k c
  simp [actions, ListKey]

/-- **Step lemma.** A callee line keeps the invariant. -/
theorem Listed.callee {m : Location} {caller : String} {st : State} (h : Listed m caller st)
    (callee : String) : Listed m caller (actions.callee st callee caller) := by
  intro k c
  simp only [actions, addValueToMap, Index.mem_get_add, Index.mem_get_foldl_add, ListKey.append,
    h k c, or_and_right, or_assoc]

theorem callees_nearBy (caller : String) (cs : List String) (st : State) :
    (cs.foldl (fun st callee => actions.callee st callee caller) st).nearByCallees =
      st.nearByCallees ++ cs := by
  induction cs generalizing st with
  | nil => simp
  | cons a cs ih =>
    rw [List.foldl_cons, ih]
    simp [actions, addValueToMap]

/-- **A block** puts its caller under the lists of its callees. -/
theorem mem_get_runBlock (st : State) (b : Block) (k : List String) (c : String) :
    c ∈ (actions.runBlock st b).location.get k ↔
      c ∈ st.location.get k ∨ (ListKey b.callees k ∧ c = b.caller) := by
  -- the invariant, along the callee lines
  have hinv : ∀ (cs : List String) (st' : State), Listed st.location b.caller st' →
      Listed st.location b.caller
        (cs.foldl (fun st callee => actions.callee st callee b.caller) st') := by
    intro cs
    induction cs with
    | nil => exact fun _ h => h
    | cons a cs ih => exact fun st' h => ih _ (h.callee a)
  have h := hinv b.callees _ (Listed.header b.caller st) k c
  rw [callees_nearBy] at h
  simpa [actions, Actions.runBlock] using h

/-- **A run** puts under a key the callers that have a block with that key. -/
theorem mem_get_location (bs : List Block) (k : List String) (c : String) :
    c ∈ (bs.foldl actions.runBlock init).location.get k ↔
      ∃ b ∈ bs, ListKey b.callees k ∧ c = b.caller := by
  rw [Index.mem_get_foldl State.location mem_get_runBlock]
  simp [init]

/-- The map `location` holds the places of the functions and ordered pairs of
`D`, and no other keys. -/
structure Records (location : Location) (D : OrderedDatabase String String) : Prop where
  keys : ∀ k ∈ location.keys, (∃ a, k = [a]) ∨ ∃ x y, k = [x, y]
  single : ∀ a, location.get [a] = D.single a
  pair : ∀ x y, location.get [x, y] = D.pair x y

/-- **The location map of a call graph records in which order functions are
called.** -/
theorem records_location (bs : List Block) :
    Records (bs.foldl actions.runBlock init).location (orderedDatabase bs) where
  keys k hk := by
    obtain ⟨c, hc⟩ := Index.mem_keys_iff.mp hk
    obtain ⟨b, -, ⟨x, -, h⟩ | ⟨x, y, -, h⟩, -⟩ := (mem_get_location bs k c).mp hc
    · exact Or.inl ⟨x, h⟩
    · exact Or.inr ⟨x, y, h⟩
  single a := by
    ext c
    rw [mem_get_location]
    simp only [ListKey, orderedDatabase, callersOf, mem_sites]
    constructor
    · intro h
      obtain ⟨b, hb, ⟨x, hx, h⟩ | ⟨x, y, -, h⟩, hc⟩ := h
      · exact ⟨b, hb, hc, List.head_eq_of_cons_eq h ▸ hx⟩
      · simp at h
    · intro h
      obtain ⟨b, hb, hc, h⟩ := h
      exact ⟨b, hb, Or.inl ⟨a, h, rfl⟩, hc⟩
  pair x y := by
    ext c
    rw [mem_get_location]
    simp only [ListKey, orderedDatabase, callersInOrder, mem_sites]
    constructor
    · intro h
      obtain ⟨b, hb, ⟨z, -, h⟩ | ⟨x', y', hsub, h⟩, hc⟩ := h
      · simp at h
      · exact ⟨b, hb, hc, h ▸ hsub⟩
    · intro h
      obtain ⟨b, hb, hc, h⟩ := h
      exact ⟨b, hb, Or.inr ⟨x, y, h, rfl⟩, hc⟩

end Pipair.PartD
