import Pipair.PartC.Expanded

/-!
# Part C, the variant between the two

`proj/qi/partC/pipair_C1_2.java` came after `pipair_C1.java` and before
`Group63/pi/partC/pipair_java2.java`. It expands into a list, like the later one, and
still fills `location` line by line while it reads, like the earlier one; then
`initInterLocation` clears the map.

So what was read into the map is not used (`main_eq_expand`). And the map it builds
with one level is part of that of the earlier variant, which does not take the
functions on the way out (`location_against_set`).
-/

namespace Pipair.PartC.ListExpand

open Mining

-- ---------------------------------------------------------------------------
-- The program
-- ---------------------------------------------------------------------------

section Program

variable (callerCallee : CallerCallee) (ord : Expand.ExpandOrder) (expandLevel : Int)

/-- Expand the function `caller`; `result` is the list that all calls share. -/
def getCalleeExtend (depth : Nat) (result : List String) (caller : String) (levelCount : Int) :
    Except Fault (List String) :=
  match depth with
  | 0 => .error .diverged
  | depth + 1 =>
    -- expandLevel means expand level, default =1
    if levelCount > expandLevel then .ok result
    else
      match callerCallee.get caller with
      | none => .ok result
      | some callees =>
        if callees.Nonempty then
          ((ord.callees caller).list callees).foldlM
            (fun result callee => getCalleeExtend depth result callee (intAdd levelCount 1))
            (result.erase caller ++ (ord.callees caller).list callees)
        else .ok result

/-- The set of the expanded callees of a caller. -/
def extend (caller : String) : Except Fault (Finset String) := do
  let tranList ← getCalleeExtend callerCallee ord expandLevel
    (Expand.callDepth callerCallee expandLevel) [] caller 0
  pure tranList.toFinset

/-- The first loop of `initInterLocation`, over `callerCallee.keySet()`. -/
def callerCalleeExtend : Except Fault CallerCallee :=
  (ord.callers.list callerCallee.keySet).foldlM (fun m caller => do
    let tranSet ← extend callerCallee ord expandLevel caller
    pure (m.put caller tranSet)) HashMap.empty

/-- `location.clear()` -/
def clear (_ : Location) : Location := Index.empty

def initInterLocation (location : Location) : Except Fault Location := do
  let extended ← callerCalleeExtend callerCallee ord expandLevel
  (ord.extended.list extended.keySet).foldlM (fun location caller => do
    let extendCallees ← deref (extended.get caller)
    pure (Expand.addCombinations location caller ((ord.toArray caller).list extendCallees)))
    (clear location)

end Program

/-- What `main` does with the lines it reads is what the variant that searches does:
`location` as in part A, and the callees of each caller. -/
def actions : Actions State := PartC.actions

def printBug : PrintOrder → Location → Int → ℚ → Except Fault (List BugLine) :=
  printBugWith fun _ _ _ => .ok false

def main (ord : PrintOrder) (expand : Expand.ExpandOrder) (expandLevel : Int) (text : List Char)
    (support : Int) (confidence : ℚ) : Except Fault (List BugLine) := do
  let st := scanLoop actions text init
  let location ← initInterLocation st.callerCallee expand expandLevel st.location
  printBug ord location support confidence

-- ---------------------------------------------------------------------------
-- Against the later variant
-- ---------------------------------------------------------------------------

theorem getCalleeExtend_eq (cc : CallerCallee) (ord : Expand.ExpandOrder) (e : Int) (depth : Nat)
    (result : List String) (caller : String) (level : Int) :
    getCalleeExtend cc ord e depth result caller level =
      Expand.getCalleeExtend cc ord e depth result caller level := by
  induction depth generalizing result caller level with
  | zero => rfl
  | succ depth ih =>
    have hround : (fun (result : List String) callee =>
        getCalleeExtend cc ord e depth result callee (intAdd level 1)) =
          fun result callee =>
            Expand.getCalleeExtend cc ord e depth result callee (intAdd level 1) := by
      funext result callee
      exact ih result callee (intAdd level 1)
    rw [getCalleeExtend, hround]
    exact (Expand.getCalleeExtend.eq_def cc ord e (depth + 1) result caller level).symm

theorem initInterLocation_eq (cc : CallerCallee) (ord : Expand.ExpandOrder) (e : Int)
    (location : Location) :
    initInterLocation cc ord e location = Expand.initInterLocation cc ord e := by
  have hextend : extend cc ord e = Expand.extend cc ord e := by
    funext caller
    rw [extend, getCalleeExtend_eq, Expand.extend]
  have hextended : callerCalleeExtend cc ord e = Expand.callerCalleeExtend cc ord e := by
    rw [callerCalleeExtend, hextend, Expand.callerCalleeExtend]
  rw [initInterLocation, hextended, Expand.initInterLocation, clear]

/-- **The two variants print the same**, in the same order and with the same result of the run,
for every text, level and thresholds and under the same orders of their loops: the map filled
while reading does not matter. -/
theorem main_eq_expand (ord : PrintOrder) (expand : Expand.ExpandOrder) (e : Int)
    (text : List Char) (s : Int) (t : ℚ) :
    main ord expand e text s t = Expand.main ord expand e text s t := by
  have hst : scanLoop actions text init = stateOf (blocks text) := scanLoop_eq_blocks ..
  rw [main, Expand.main, hst, stateOf_callerCallee, Expand.scanLoop_callerCallee]
  simp only [initInterLocation_eq]
  rfl

-- ---------------------------------------------------------------------------
-- Against the earlier variant
-- ---------------------------------------------------------------------------

/-- `c` calls `a`, which has callees of its own: the list loses `a` when it is expanded. -/
def Passed (cc : CallerCallee) (c a : String) : Prop := Calls cc c a ∧ a ∈ cc.keySet

/-- Within two calls an unfolding either ends or passes. -/
theorem near_iff {cc : CallerCallee} {c a : String} :
    SetExpand.Near cc c a ↔ Expand.EndsAt cc 1 c a ∨ Passed cc c a := by
  constructor
  · rintro ⟨k, h1, h2, hw⟩
    obtain rfl | rfl : k = 1 ∨ k = 2 := by omega
    · by_cases ha : a ∈ cc.keySet
      · obtain ⟨x, hx, hcall⟩ := Walk.succ_iff.mp hw
        exact Or.inr ⟨Walk.zero_iff.mp hx ▸ hcall, ha⟩
      · exact Or.inl ⟨by decide, Or.inr ⟨1, le_rfl, by decide, hw, ha⟩⟩
    · exact Or.inl ⟨by decide, Or.inl hw⟩
  · rintro (⟨-, hw | ⟨k, h1, h2, hw, -⟩⟩ | ⟨hcall, -⟩)
    · exact ⟨2, by omega, le_rfl, hw⟩
    · exact ⟨k, h1, by omega, hw⟩
    · exact ⟨1, le_rfl, by omega, Walk.single hcall⟩

/-- What the list variant builds with one level. -/
theorem exists_location_ends (bs : List Block) (ord : Expand.ExpandOrder) (location : Location) :
    ∃ locL, initInterLocation (lastCallees bs) ord 1 location = .ok locL ∧
      ∀ a b c, c ∈ locL.get {a, b} ↔
        Expand.EndsAt (lastCallees bs) 1 c a ∧ Expand.EndsAt (lastCallees bs) 1 c b := by
  have hne := nonemptyCallees_lastCallees bs
  obtain ⟨locL, hrun, hmem⟩ := Expand.exists_initInterLocation_endsAt bs ord (e := 1) (by decide)
  refine ⟨locL, by rw [initInterLocation_eq, hrun], fun a b c => ?_⟩
  rw [hmem, PartA.pairKey_pair]
  constructor
  · rintro ⟨hc, ha, hb⟩
    exact ⟨(Expand.mem_expanded_endsAt hne ord 1 hc a).mp ha,
      (Expand.mem_expanded_endsAt hne ord 1 hc b).mp hb⟩
  · rintro ⟨ha, hb⟩
    -- a function from which something is reached has callees
    have hext : a ∈ SetExpand.extend (lastCallees bs) ord c :=
      SetExpand.mem_extend_iff.mpr (near_iff.mpr (Or.inl ha))
    have hc : c ∈ (lastCallees bs).keySet := SetExpand.mem_keySet_of_mem_extend hext
    exact ⟨hc, (Expand.mem_expanded_endsAt hne ord 1 hc a).mpr ha,
      (Expand.mem_expanded_endsAt hne ord 1 hc b).mpr hb⟩

/-- What the set variant builds: the places found while reading, and the pairs within two
calls. -/
theorem exists_location_near (bs : List Block) (ord : Expand.ExpandOrder) :
    ∃ locS, SetExpand.initInterLocation (lastCallees bs) ord (stateOf bs).location = .ok locS ∧
      ∀ a b c, c ∈ locS.get {a, b} ↔ c ∈ callersOfBoth bs a b ∨
        (SetExpand.Near (lastCallees bs) c a ∧ SetExpand.Near (lastCallees bs) c b) := by
  obtain ⟨locS, hrun, hmem⟩ := SetExpand.exists_initInterLocation (lastCallees bs) ord
    (stateOf bs).location
  refine ⟨locS, hrun, fun a b c => ?_⟩
  have hread : c ∈ (stateOf bs).location.get {a, b} ↔ c ∈ callersOfBoth bs a b := by
    rw [stateOf_location, PartA.mem_get_location, callersOfBoth, mem_sites]
    simp only [PartA.pairKey_pair, List.mem_toFinset, and_comm, and_assoc]
  rw [hmem, hread, PartA.pairKey_pair, SetExpand.mem_extend_iff, SetExpand.mem_extend_iff,
    SetExpand.Near, SetExpand.Near]

/--
**What the change from sets to lists removed.** For every text and all orders of the loops, both
variants build their maps; with one level the list variant finds no function and no pair at a
caller where the set variant does not. What the set variant has in addition is

* the places found while reading, which the list variant clears;
* the pairs within two calls one of whose functions is passed on the way out, by the calls
  that are stored, those of the last node of each caller.
-/
theorem location_against_set (ord ord' : Expand.ExpandOrder) (text : List Char) :
    ∃ locL locS,
      initInterLocation (scanLoop actions text init).callerCallee ord 1
        (scanLoop actions text init).location = .ok locL ∧
      SetExpand.initInterLocation (scanLoop actions text init).callerCallee ord'
        (scanLoop actions text init).location = .ok locS ∧
      ∀ a b c, c ∈ locS.get {a, b} ↔
        c ∈ locL.get {a, b} ∨ c ∈ callersOfBoth (blocks text) a b ∨
          (SetExpand.Near (lastCallees (blocks text)) c a ∧
            SetExpand.Near (lastCallees (blocks text)) c b ∧
            (Passed (lastCallees (blocks text)) c a ∨ Passed (lastCallees (blocks text)) c b)) := by
  have hst : scanLoop actions text init = stateOf (blocks text) := scanLoop_eq_blocks ..
  rw [hst, stateOf_callerCallee]
  generalize blocks text = bs
  obtain ⟨locL, hL, hmemL⟩ := exists_location_ends bs ord (stateOf bs).location
  obtain ⟨locS, hS, hmemS⟩ := exists_location_near bs ord'
  refine ⟨locL, locS, hL, hS, fun a b c => ?_⟩
  rw [hmemS, hmemL, near_iff, near_iff]
  tauto

end Pipair.PartC.ListExpand
