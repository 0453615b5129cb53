import Pipair.PartC.ExpandAgainstA
import Pipair.PartC.Run

/-!
# Part C, the variant that expands into a set

`proj/qi/partC/pipair_C1.java`, an earlier version of the expansion. It fills
`location` line by line as part A does, and `initInterLocation` goes on with that
map: it expands every caller by one level, into one set for the whole recursion,
and puts the caller under all pairs of the set.

The set has the functions within two calls (`mem_extend_iff`). What was in
`location` before is among the pairs of it, so the map is the one that is built
from nothing (`location_within`).
-/

namespace Pipair.PartC.SetExpand

-- ---------------------------------------------------------------------------
-- The program
-- ---------------------------------------------------------------------------

section Program

variable (callerCallee : CallerCallee) (ord : Expand.ExpandOrder)

/-- Expand the function `caller`; `result` is the set that all calls share. -/
def getCalleeExtend (result : Finset String) (caller : String) (levelCount : Int) :
    Finset String :=
  -- 1: means expand level = 1
  if levelCount > 1 then result
  else
    match callerCallee.get caller with
    | none => result
    | some callees =>
      if callees.Nonempty then
        ((ord.callees caller).list callees).foldl
          (fun result callee => getCalleeExtend result callee (levelCount + 1))
          (result ∪ callees)
      else result
termination_by (2 - levelCount).toNat
decreasing_by omega

/-- The set of the expanded callees of a caller. -/
def extend (caller : String) : Finset String := getCalleeExtend callerCallee ord ∅ caller 0

/-- The first loop of `initInterLocation`, over `callerCallee.keySet()`. -/
def callerCalleeExtend : CallerCallee :=
  (ord.callers.list callerCallee.keySet).foldl
    (fun m caller => m.put caller (extend callerCallee ord caller)) HashMap.empty

/-- The map `location` is not cleared before the second loop. -/
def initInterLocation (location : Location) : Except Fault Location :=
  let extended := callerCalleeExtend callerCallee ord
  (ord.extended.list extended.keySet).foldlM (fun location caller => do
    let extendCallees ← deref (extended.get caller)
    pure (Expand.addCombinations location caller ((ord.toArray caller).list extendCallees)))
    location

end Program

/-- What `main` does with the lines it reads is what the variant that searches does:
`location` as in part A, and the callees of each caller. -/
def actions : Actions State := PartC.actions

def printBug : PrintOrder → Location → Int → ℚ → Except Fault (List BugLine) :=
  printBugWith fun _ _ _ => .ok false

def main (ord : PrintOrder) (expand : Expand.ExpandOrder) (text : List Char) (support : Int)
    (confidence : ℚ) : Except Fault (List BugLine) := do
  let st := scanLoop actions text init
  let location ← initInterLocation st.callerCallee expand st.location
  printBug ord location support confidence

-- ---------------------------------------------------------------------------
-- The expanded callees
-- ---------------------------------------------------------------------------

section Extend

variable {cc : CallerCallee} {ord : Expand.ExpandOrder} {f g : String}

/-- A loop whose rounds add to a set adds what its rounds add. -/
theorem mem_foldl_iff {add : Finset String → String → Finset String} {P : String → Prop}
    {l : List String} (h : ∀ f ∈ l, ∀ result, g ∈ add result f ↔ g ∈ result ∨ P f)
    (result : Finset String) : g ∈ l.foldl add result ↔ g ∈ result ∨ ∃ f ∈ l, P f := by
  induction l generalizing result with
  | nil => simp
  | cons f l ih =>
    rw [List.foldl_cons, ih fun f' hf' => h f' (List.mem_cons_of_mem _ hf'),
      h f (List.mem_cons_self ..), List.exists_mem_cons_iff, or_assoc]

/-- **A call** adds the functions within the calls that are left. -/
theorem mem_getCalleeExtend_iff {n : Nat} {level : Int} (hn : (n : Int) = 2 - level)
    (result : Finset String) :
    g ∈ getCalleeExtend cc ord result f level ↔
      g ∈ result ∨ ∃ k, 1 ≤ k ∧ k ≤ n ∧ Walk (Calls cc) k f g := by
  induction n generalizing f level result with
  | zero =>
    rw [getCalleeExtend, if_pos (by omega)]
    refine (or_iff_left ?_).symm
    rintro ⟨k, h1, h2, -⟩
    omega
  | succ n ih =>
    -- a chain from `f` starts with a call of one of its callees
    have hhead : (∃ k, 1 ≤ k ∧ k ≤ n + 1 ∧ Walk (Calls cc) k f g) ↔
        Calls cc f g ∨ ∃ x, Calls cc f x ∧ ∃ k, 1 ≤ k ∧ k ≤ n ∧ Walk (Calls cc) k x g := by
      constructor
      · rintro ⟨k, h1, h2, hw⟩
        obtain ⟨k, rfl⟩ := Nat.exists_eq_add_of_le' h1
        obtain ⟨x, hx, hw⟩ := Walk.succ_iff_head.mp hw
        rcases Nat.eq_zero_or_pos k with rfl | hk
        · exact Or.inl (Walk.zero_iff.mp hw ▸ hx)
        · exact Or.inr ⟨x, hx, k, hk, by omega, hw⟩
      · rintro (hcall | ⟨x, hx, k, h1, h2, hw⟩)
        · exact ⟨1, le_rfl, by omega, Walk.single hcall⟩
        · exact ⟨k + 1, by omega, by omega, Walk.head hx hw⟩
    rw [getCalleeExtend, if_neg (by omega), hhead]
    cases hs : cc.get f with
    | none => simp [Calls, hs]
    | some s =>
      have hcall : ∀ x, Calls cc f x ↔ x ∈ s := fun x => by simp [Calls, hs]
      simp only [hcall]
      split
      · have hround : ∀ x ∈ (ord.callees f).list s, ∀ result,
            g ∈ getCalleeExtend cc ord result x (level + 1) ↔
              g ∈ result ∨ ∃ k, 1 ≤ k ∧ k ≤ n ∧ Walk (Calls cc) k x g :=
          fun x _ result => ih (by omega) result
        rw [mem_foldl_iff hround, Finset.mem_union, or_assoc]
        simp only [Iteration.mem_list]
      · next hempty => simp [Finset.not_nonempty_iff_eq_empty.mp hempty]

theorem mem_extend_iff :
    g ∈ extend cc ord f ↔ ∃ k, 1 ≤ k ∧ k ≤ 2 ∧ Walk (Calls cc) k f g := by
  rw [extend, mem_getCalleeExtend_iff (n := 2) rfl]
  simp only [Finset.notMem_empty, false_or]

/-- A caller with expanded callees has callees. -/
theorem mem_keySet_of_mem_extend (h : g ∈ extend cc ord f) : f ∈ cc.keySet := by
  obtain ⟨k, h1, -, hw⟩ := mem_extend_iff.mp h
  obtain ⟨k, rfl⟩ := Nat.exists_eq_add_of_le' h1
  obtain ⟨x, ⟨s, hs, -⟩, -⟩ := Walk.succ_iff_head.mp hw
  exact HashMap.mem_keySet_of_get hs

theorem get_callerCalleeExtend (caller : String) :
    (callerCalleeExtend cc ord).get caller =
      if caller ∈ cc.keySet then some (extend cc ord caller) else none := by
  rw [callerCalleeExtend, HashMap.get_foldl_put]
  simp only [Iteration.mem_list, HashMap.get_empty]

/-- A caller goes under the pairs of its expanded callees, in addition to what is there. -/
theorem exists_initInterLocation (cc : CallerCallee) (ord : Expand.ExpandOrder)
    (location : Location) :
    ∃ location', initInterLocation cc ord location = .ok location' ∧
      ∀ k c, c ∈ location'.get k ↔
        c ∈ location.get k ∨ PartA.PairKey (extend cc ord c) k := by
  obtain ⟨location', hrun, hmem⟩ := Expand.foldlM_addCombinations (callerCalleeExtend cc ord)
    ord.toArray (l := ord.extended.list (callerCalleeExtend cc ord).keySet)
    (fun c hc => (Iteration.mem_list _).mp hc) location
  refine ⟨location', hrun, fun k c => ?_⟩
  rw [hmem, Iteration.mem_list]
  refine or_congr_right ?_
  constructor
  · intro h
    obtain ⟨-, s, hs, hkey⟩ := h
    rw [get_callerCalleeExtend] at hs
    split at hs
    · exact Option.some.inj hs ▸ hkey
    · exact absurd hs (by simp)
  · intro hkey
    have hc : c ∈ cc.keySet := by
      obtain ⟨x, hx, -⟩ := hkey
      exact mem_keySet_of_mem_extend hx
    have hget : (callerCalleeExtend cc ord).get c = some (extend cc ord c) := by
      rw [get_callerCalleeExtend, if_pos hc]
    exact ⟨HashMap.mem_keySet_of_get hget, _, hget, hkey⟩

end Extend

-- ---------------------------------------------------------------------------
-- The location map
-- ---------------------------------------------------------------------------

/-- The function `a` is reached from `c` by a chain of one or two calls. -/
def Within (bs : List Block) (c a : String) : Prop :=
  ∃ k, 1 ≤ k ∧ k ≤ 2 ∧ Walk (fun f g => f ∈ callersOf bs g) k c a

section Within

variable {bs : List Block} {ord : Expand.ExpandOrder}

/-- **Distinct headers.** When no caller heads two blocks, the calls stored are those of
the blocks. -/
theorem calls_lastCallees (hbs : (bs.map Block.caller).Nodup) {f g : String} :
    Calls (lastCallees bs) f g ↔ f ∈ callersOf bs g := by
  simp only [Calls, get_lastCallees hbs, callersOf, mem_sites]
  constructor
  · intro h
    obtain ⟨s, ⟨b, hb, rfl, -, rfl⟩, hg⟩ := h
    exact ⟨b, hb, rfl, List.mem_toFinset.mp hg⟩
  · intro h
    obtain ⟨b, hb, rfl, hg⟩ := h
    exact ⟨_, ⟨b, hb, rfl, List.ne_nil_of_mem hg, rfl⟩, List.mem_toFinset.mpr hg⟩

theorem mem_extend_lastCallees (hbs : (bs.map Block.caller).Nodup) {c a : String} :
    a ∈ extend (lastCallees bs) ord c ↔ Within bs c a := by
  have hrel : Calls (lastCallees bs) = fun f g => f ∈ callersOf bs g := by
    funext f g
    exact propext (calls_lastCallees hbs)
  rw [mem_extend_iff, hrel, Within]

/-- What a block put into `location` is among the pairs of the expanded callees. -/
theorem pairKey_of_location (hbs : (bs.map Block.caller).Nodup) {k : Finset String} {c : String}
    (h : c ∈ (stateOf bs).location.get k) :
    PartA.PairKey (extend (lastCallees bs) ord c) k := by
  rw [stateOf_location, PartA.mem_get_location] at h
  obtain ⟨b, hb, ⟨x, hx, y, hy, hk⟩, rfl⟩ := h
  -- the callees of the block are one call away
  have hcallee : ∀ z ∈ b.callees.toFinset, z ∈ extend (lastCallees bs) ord b.caller := by
    intro z hz
    rw [mem_extend_lastCallees hbs]
    exact ⟨1, le_rfl, by omega,
      Walk.single (mem_sites (p := (z ∈ ·)).mpr ⟨b, hb, rfl, List.mem_toFinset.mp hz⟩)⟩
  exact ⟨x, hcallee x hx, y, hcallee y hy, hk⟩

theorem exists_location_within (hbs : (bs.map Block.caller).Nodup) (ord : Expand.ExpandOrder) :
    ∃ location, initInterLocation (lastCallees bs) ord (stateOf bs).location = .ok location ∧
      initInterLocation (lastCallees bs) ord Index.empty = .ok location ∧
      ∀ k c, c ∈ location.get k ↔ PartA.PairKey (extend (lastCallees bs) ord c) k := by
  obtain ⟨location, hrun, hmem⟩ :=
    exists_initInterLocation (lastCallees bs) ord (stateOf bs).location
  obtain ⟨location', hrun', hmem'⟩ := exists_initInterLocation (lastCallees bs) ord Index.empty
  have hpairs : ∀ k c, c ∈ location.get k ↔
      PartA.PairKey (extend (lastCallees bs) ord c) k := by
    intro k c
    rw [hmem, or_iff_right_of_imp (pairKey_of_location hbs)]
  have heq : location' = location := by
    apply Index.ext_get
    intro k
    ext c
    rw [hmem', hpairs, Index.get_empty]
    simp only [Finset.notMem_empty, false_or]
  exact ⟨location, hrun, heq ▸ hrun', hpairs⟩

end Within

/--
**The map of the set expansion.** For every text in which no caller heads two nodes,
and whatever the orders of the loops, `initInterLocation` does not fault, and

1. its keys are the `{a, b}`, `a = b` included, for which some caller reaches both
   `a` and `b` by chains of one or two calls;
2. a key has exactly those callers;
3. it is the map built without the entries that reading the text left in `location`.
-/
theorem location_within (ord : Expand.ExpandOrder) (text : List Char)
    (hbs : ((blocks text).map Block.caller).Nodup) :
    ∃ location, initInterLocation (scanLoop actions text init).callerCallee ord
        (scanLoop actions text init).location = .ok location ∧
      (∀ k, k ∈ location.keys ↔
        ∃ a b c, k = {a, b} ∧ Within (blocks text) c a ∧ Within (blocks text) c b) ∧
      (∀ a b c, c ∈ location.get {a, b} ↔
        Within (blocks text) c a ∧ Within (blocks text) c b) ∧
      initInterLocation (scanLoop actions text init).callerCallee ord Index.empty =
        .ok location := by
  have hst : scanLoop actions text init = stateOf (blocks text) := scanLoop_eq_blocks ..
  rw [hst, stateOf_callerCallee]
  obtain ⟨location, hrun, hempty, hpairs⟩ := exists_location_within hbs ord
  refine ⟨location, hrun, fun k => ?_, fun a b c => ?_, hempty⟩
  · rw [Index.mem_keys_iff]
    constructor
    · intro h
      obtain ⟨c, hc⟩ := h
      obtain ⟨a, ha, b, hb, hk⟩ := (hpairs k c).mp hc
      exact ⟨a, b, c, hk, (mem_extend_lastCallees hbs).mp ha, (mem_extend_lastCallees hbs).mp hb⟩
    · intro h
      obtain ⟨a, b, c, hk, ha, hb⟩ := h
      exact ⟨c, (hpairs k c).mpr ⟨a, (mem_extend_lastCallees hbs).mpr ha, b,
        (mem_extend_lastCallees hbs).mpr hb, hk⟩⟩
  · rw [hpairs, PartA.pairKey_pair, mem_extend_lastCallees hbs, mem_extend_lastCallees hbs]

/-- **The lines printed** are those of part A on one block for each caller, which lists
the functions it reaches by one or two calls, in any order. -/
theorem main_perm_partA (ord ordA : PrintOrder) (expand : Expand.ExpandOrder)
    {text : List Char} (hbs : ((blocks text).map Block.caller).Nodup) {bs : List Block}
    (h : Expand.Lists (extend (lastCallees (blocks text)) expand)
      (lastCallees (blocks text)).keySet bs) (s : Int) (t : ℚ) :
    ∃ out outA, main ord expand text s t = .ok out ∧ PartA.run ordA bs s t = .ok outA ∧
      out.Perm outA := by
  obtain ⟨location, hrun, -, hpairs⟩ := exists_location_within hbs expand
  have hmem : ∀ k c, c ∈ location.get k ↔ c ∈ (lastCallees (blocks text)).keySet ∧
      PartA.PairKey (extend (lastCallees (blocks text)) expand c) k := by
    intro k c
    rw [hpairs]
    refine (and_iff_right_of_imp ?_).symm
    rintro ⟨x, hx, -⟩
    exact mem_keySet_of_mem_extend hx
  have hst : scanLoop actions text init = stateOf (blocks text) := scanLoop_eq_blocks ..
  rw [main, hst, stateOf_callerCallee, hrun, ok_bind, h.location_eq hmem]
  exact (PartA.run_prints ord bs s t).perm (PartA.run_prints ordA bs s t)

/-- In `nested` the caller `f` reaches `C` by two calls. -/
theorem location_within_nested :
    ∃ location, initInterLocation (scanLoop actions Expand.nested init).callerCallee default
        (scanLoop actions Expand.nested init).location = .ok location ∧
      initInterLocation (scanLoop actions Expand.nested init).callerCallee default Index.empty =
        .ok location := by
  obtain ⟨location, hrun, -, -, hempty⟩ :=
    location_within default Expand.nested (by decide +kernel)
  exact ⟨location, hrun, hempty⟩

end Pipair.PartC.SetExpand
