import Pipair.PartA
import Pipair.PartC.Search

/-!
# Part C, the variant that expands the callers

`Group63/pi/partC/pipair_java2.java`. The callees of each caller are read first;
then every caller is expanded by `getCalleeExtend`, which replaces functions by
their callees down to `expandLevel`, and `location` is built anew from the
expanded callees, by a double loop over them (`exists_initInterLocation`).

The recursion is bounded by `levelCount > expandLevel` alone, and `levelCount` is an
`int`: with the largest `expandLevel` no level is above it. So `getCalleeExtend` has its
depth as an argument here, and a result when the depth is enough for it. `callDepth` is
enough for every call that comes to an end at all (`getCalleeExtend_callDepth`).
-/

namespace Pipair.PartC.Expand

open Mining

-- ---------------------------------------------------------------------------
-- The program
-- ---------------------------------------------------------------------------

/-- The orders of the loops: over `callerCallee.get(f)` for each `f`, over
`callerCallee.keySet()`, over `callerCalleeExtend.keySet()`, and of the array of
the expanded callees of each caller. -/
structure ExpandOrder where
  callees : String → Iteration String
  callers : Iteration String
  extended : Iteration String
  toArray : String → Iteration String

noncomputable instance : Inhabited ExpandOrder :=
  ⟨⟨fun _ => default, default, default, fun _ => default⟩⟩

section Program

variable (callerCallee : CallerCallee) (ord : ExpandOrder) (expandLevel : Int)

/-- Expand the function `caller`; `result` is the list that all calls share. -/
def getCalleeExtend (depth : Nat) (result : List String) (caller : String) (levelCount : Int) :
    Except Fault (List String) :=
  match depth with
  | 0 => .error .diverged
  | depth + 1 =>
    -- expandLevel is expand level, default =1
    if levelCount > expandLevel then .ok result
    else
      match callerCallee.get caller with
      | none => .ok result
      | some callees =>
        if callees.Nonempty then
          ((ord.callees caller).list callees).foldlM
            (fun result callee => getCalleeExtend depth result callee (intAdd levelCount 1))
            (result.erase caller ++ (ord.callees caller).list callees)
        else .ok result

/-- Calls nest no deeper when they come to an end: either the levels get above `expandLevel`
or the callers on the way are all different. -/
def callDepth : Nat := expandLevel.toNat + callerCallee.keySet.card + 2

/-- The set of the expanded callees of a caller. -/
def extend (caller : String) : Except Fault (Finset String) := do
  let tranList ← getCalleeExtend callerCallee ord expandLevel (callDepth callerCallee expandLevel)
    [] caller 0
  pure tranList.toFinset

/-- The first loop of `initInterLocation`, over `callerCallee.keySet()`. -/
def callerCalleeExtend : Except Fault CallerCallee :=
  (ord.callers.list callerCallee.keySet).foldlM (fun m caller => do
    let tranSet ← extend callerCallee ord expandLevel caller
    pure (m.put caller tranSet)) HashMap.empty

/-- The double loop: the caller goes under every combination of two entries. -/
def addCombinations (location : Location) (caller : String) (extendCallees : List String) :
    Location :=
  extendCallees.foldl (fun location x =>
    extendCallees.foldl (fun location y => location.add {x, y} caller) location) location

def initInterLocation : Except Fault Location := do
  let extended ← callerCalleeExtend callerCallee ord expandLevel
  (ord.extended.list extended.keySet).foldlM (fun location caller => do
    let extendCallees ← deref (extended.get caller)
    pure (addCombinations location caller ((ord.toArray caller).list extendCallees))) Index.empty

end Program

/-- The callees of the block being read, and the static map. -/
structure State where
  callees : Finset String
  callerCallee : CallerCallee

/-- What `main` does with the lines it reads. -/
def actions : Actions State where
  header st := { st with callees := ∅ }
  callee st callee _ := { st with callees := insert callee st.callees }
  footer st caller :=
    if st.callees.Nonempty then
      { st with callerCallee := st.callerCallee.put caller st.callees }
    else st

def init : State := ⟨∅, HashMap.empty⟩

def printBug : PrintOrder → Location → Int → ℚ → Except Fault (List BugLine) :=
  printBugWith fun _ _ _ => .ok false

def main (ord : PrintOrder) (expand : ExpandOrder) (expandLevel : Int) (text : List Char)
    (support : Int) (confidence : ℚ) : Except Fault (List BugLine) := do
  let st := scanLoop actions text init
  let location ← initInterLocation st.callerCallee expand expandLevel
  printBug ord location support confidence

-- ---------------------------------------------------------------------------
-- The location map
-- ---------------------------------------------------------------------------

section Location

variable {cc : CallerCallee} {ord : ExpandOrder} {e : Int}

/-- The map of the expanded callees, when all callers are expanded. -/
theorem callerCalleeExtend_eq {extended : String → Finset String}
    (h : ∀ c ∈ cc.keySet, extend cc ord e c = .ok (extended c)) :
    ∃ m, callerCalleeExtend cc ord e = .ok m ∧ m.keySet = cc.keySet ∧
      ∀ c ∈ cc.keySet, m.get c = some (extended c) := by
  have hget : ∀ c, ((ord.callers.list cc.keySet).foldl
      (fun (m : CallerCallee) c => m.put c (extended c)) HashMap.empty).get c =
        if c ∈ cc.keySet then some (extended c) else none := by
    intro c
    rw [HashMap.get_foldl_put]
    simp only [Iteration.mem_list, HashMap.get_empty]
  refine ⟨_, Loop.foldlM_ok (fun m c hc => ?_) _, ?_, fun c hc => by rw [hget, if_pos hc]⟩
  · rw [h c ((Iteration.mem_list _).mp hc), ok_bind]
    rfl
  · ext c
    rw [HashMap.mem_keySet, hget]
    split
    · next hc => simp [hc]
    · next hc => simp [hc]

/-- It is there only then. -/
theorem extend_ok_of_callerCalleeExtend {m : CallerCallee}
    (h : callerCalleeExtend cc ord e = .ok m) :
    ∃ extended : String → Finset String, ∀ c ∈ cc.keySet, extend cc ord e c = .ok (extended c) := by
  have hall : ∀ c, ∃ s, c ∈ cc.keySet → extend cc ord e c = .ok s := by
    have hround : ∀ (m : CallerCallee) c, (∃ m', (do
        let tranSet ← extend cc ord e c
        pure (m.put c tranSet) : Except Fault CallerCallee) = .ok m') ↔
          ∃ s, extend cc ord e c = .ok s := by
      intro m c
      constructor
      · intro hex
        obtain ⟨m', hm⟩ := hex
        obtain ⟨s, hs, -⟩ := Loop.exists_of_bind_ok hm
        exact ⟨s, hs⟩
      · intro hex
        obtain ⟨s, hs⟩ := hex
        rw [hs]
        exact ⟨_, rfl⟩
    intro c
    by_cases hc : c ∈ cc.keySet
    · obtain ⟨s, hs⟩ := (Loop.exists_foldlM_iff hround).mp ⟨m, h⟩ c ((Iteration.mem_list _).mpr hc)
      exact ⟨s, fun _ => hs⟩
    · exact ⟨∅, fun h => absurd h hc⟩
  choose extended hextended using hall
  exact ⟨extended, hextended⟩

/-- The double loop puts the caller under every pair of the entries, an entry
paired with itself included. -/
theorem mem_get_addCombinations {location : Location} {caller : String} {l : List String}
    {k : Finset String} {c : String} :
    c ∈ (addCombinations location caller l).get k ↔
      c ∈ location.get k ∨ (PartA.PairKey l.toFinset k ∧ c = caller) := by
  -- the inner loop pairs one entry with every entry
  have hrow : ∀ (location : Location) (x : String) (k : Finset String) (c : String),
      c ∈ (l.foldl (fun location y => location.add {x, y} caller) location).get k ↔
        c ∈ location.get k ∨ ((∃ y ∈ l, k = {x, y}) ∧ c = caller) :=
    fun location x k c => Index.mem_get_foldl_add
  refine (Index.mem_get_foldl id hrow l location k c).trans ?_
  simp only [id, PartA.PairKey, List.mem_toFinset]
  constructor
  · rintro (h | ⟨x, hx, ⟨y, hy, h⟩, hc⟩)
    · exact Or.inl h
    · exact Or.inr ⟨⟨x, hx, y, hy, h⟩, hc⟩
  · rintro (h | ⟨⟨x, hx, y, hy, h⟩, hc⟩)
    · exact Or.inl h
    · exact Or.inr ⟨x, hx, ⟨y, hy, h⟩, hc⟩

/-- The loop over the callers: each goes under the pairs of its set. -/
theorem foldlM_addCombinations (extended : CallerCallee) (toArray : String → Iteration String)
    {l : List String} (hl : ∀ c ∈ l, c ∈ extended.keySet) (location : Location) :
    ∃ location', l.foldlM (m := Except Fault) (fun location caller => do
        let extendCallees ← deref (extended.get caller)
        pure (addCombinations location caller ((toArray caller).list extendCallees)))
        location = .ok location' ∧
      ∀ k c, c ∈ location'.get k ↔ c ∈ location.get k ∨
        (c ∈ l ∧ ∃ s, extended.get c = some s ∧ PartA.PairKey s k) := by
  induction l generalizing location with
  | nil => exact ⟨location, rfl, by simp⟩
  | cons caller l ih =>
    obtain ⟨s, hs⟩ := HashMap.exists_get_of_mem (hl caller (List.mem_cons_self ..))
    obtain ⟨location', hrun, hmem⟩ := ih (fun c hc => hl c (List.mem_cons_of_mem _ hc))
      (addCombinations location caller ((toArray caller).list s))
    refine ⟨location', ?_, fun k c => ?_⟩
    · rw [List.foldlM_cons, hs, deref_some, ok_bind]
      exact hrun
    · rw [hmem, mem_get_addCombinations, Iteration.list_toFinset, List.mem_cons]
      constructor
      · rintro ((h | ⟨hkey, rfl⟩) | ⟨hc, h⟩)
        · exact Or.inl h
        · exact Or.inr ⟨Or.inl rfl, s, hs, hkey⟩
        · exact Or.inr ⟨Or.inr hc, h⟩
      · rintro (h | ⟨rfl | hc, s', hs', hkey⟩)
        · exact Or.inl (Or.inl h)
        · obtain rfl := Option.some.inj (hs.symm.trans hs')
          exact Or.inl (Or.inr ⟨hkey, rfl⟩)
        · exact Or.inr ⟨hc, s', hs', hkey⟩

/-- The location built holds a caller under the pairs of its expanded callees. -/
theorem exists_initInterLocation {extended : String → Finset String}
    (h : ∀ c ∈ cc.keySet, extend cc ord e c = .ok (extended c)) :
    ∃ location, initInterLocation cc ord e = .ok location ∧ ∀ k c, c ∈ location.get k ↔
      c ∈ cc.keySet ∧ PartA.PairKey (extended c) k := by
  obtain ⟨m, hm, hkeys, hget⟩ := callerCalleeExtend_eq h
  obtain ⟨location, hrun, hmem⟩ := foldlM_addCombinations m ord.toArray
    (l := ord.extended.list m.keySet) (fun c hc => (Iteration.mem_list _).mp hc) Index.empty
  refine ⟨location, ?_, fun k c => ?_⟩
  · rw [initInterLocation, hm, ok_bind]
    exact hrun
  · rw [hmem, Index.get_empty, Iteration.mem_list, hkeys]
    simp only [Finset.notMem_empty, false_or]
    refine and_congr_right fun hc => ?_
    rw [hget c hc]
    simp

/-- What is known of a location that was built. -/
theorem extend_ok_of_initInterLocation {location : Location}
    (h : initInterLocation cc ord e = .ok location) :
    ∃ extended : String → Finset String, (∀ c ∈ cc.keySet, extend cc ord e c = .ok (extended c)) ∧
      ∀ k c, c ∈ location.get k ↔ c ∈ cc.keySet ∧ PartA.PairKey (extended c) k := by
  obtain ⟨m, hm, -⟩ := Loop.exists_of_bind_ok h
  obtain ⟨extended, hextended⟩ := extend_ok_of_callerCalleeExtend hm
  obtain ⟨location', hrun, hmem⟩ := exists_initInterLocation hextended
  obtain rfl := Except.ok.inj (h.symm.trans hrun)
  exact ⟨extended, hextended, hmem⟩

end Location

-- ---------------------------------------------------------------------------
-- Reading the call graph
-- ---------------------------------------------------------------------------

theorem runBlock_callerCallee (st : State) (b : Block) :
    (actions.runBlock st b).callerCallee =
      if b.callees = [] then st.callerCallee
      else st.callerCallee.put b.caller b.callees.toFinset := by
  have hfold : ∀ (cs : List String) (st : State),
      cs.foldl (fun st callee => actions.callee st callee b.caller) st =
        { st with callees := st.callees ∪ cs.toFinset } := by
    intro cs
    induction cs with
    | nil => simp
    | cons c cs ih =>
      intro st
      rw [List.foldl_cons, ih]
      simp [actions, Finset.insert_union]
  rw [Actions.runBlock, hfold]
  by_cases hnil : b.callees = []
  · simp [actions, hnil]
  · have hne : b.callees.toFinset.Nonempty := (List.toFinset_nonempty_iff _).mpr hnil
    simp [actions, hnil, hne]

theorem foldl_callerCallee (bs : List Block) :
    (bs.foldl actions.runBlock init).callerCallee = lastCallees bs := by
  induction bs using List.reverseRecOn with
  | nil => rfl
  | append_singleton bs b ih =>
    rw [lastCallees_append, ← ih, List.foldl_append]
    exact runBlock_callerCallee _ b

end Pipair.PartC.Expand
