import Pipair.PartC.Depth

/-!
# Part C, the expansion variant against part A

`initInterLocation` of `Group63/pi/partC/pipair_java2.java` builds `location` by a double loop
over the expanded callees of each caller, part A by inserting the callees of a block one by one.
These are two ways to the same map: it is the one that part A builds from blocks that list the
expanded callees (`location_eq_partA`).
-/

namespace Pipair.PartC.Expand

open Mining

/-- The call graph with one block for each caller, which lists its extended callees
in some order. -/
structure Lists (extended : String → Finset String) (callers : Finset String)
    (bs : List Block) : Prop where
  callers : ((bs.map Block.caller : List String) : Multiset String) = callers.val
  callees : ∀ b ∈ bs, (b.callees : Multiset String) = (extended b.caller).val

/-- There is such a call graph. -/
theorem exists_lists (extended : String → Finset String) (callers : Finset String) :
    ∃ bs, Lists extended callers bs := by
  refine ⟨callers.toList.map fun c => ⟨c, (extended c).toList⟩, ?_, ?_⟩
  · rw [List.map_map]
    exact (congrArg _ (List.map_id _)).trans (Finset.coe_toList callers)
  · intro b hb
    obtain ⟨c, -, rfl⟩ := List.mem_map.mp hb
    exact Finset.coe_toList (extended c)

section AgainstA

variable {cc : CallerCallee} {ord : ExpandOrder} {e : Int} {bs : List Block}

/-- A map with every caller under the pairs of its set is the one that part A builds from
blocks that list these sets. -/
theorem Lists.location_eq {extended : String → Finset String} {callers : Finset String}
    (h : Lists extended callers bs) {location : Location}
    (hmem : ∀ k c, c ∈ location.get k ↔ c ∈ callers ∧ PartA.PairKey (extended c) k) :
    location = (bs.foldl PartA.actions.runBlock PartA.init).location := by
  -- a block of `bs` has the set of its caller, in some order
  have hcallees : ∀ b ∈ bs, b.callees.toFinset = extended b.caller := by
    intro b hb
    ext x
    rw [List.mem_toFinset, ← Multiset.mem_coe, h.callees b hb, Finset.mem_val]
  have hcallers : ∀ c, c ∈ callers ↔ ∃ b ∈ bs, b.caller = c := by
    intro c
    rw [← Finset.mem_val, ← h.callers, Multiset.mem_coe, List.mem_map]
  apply Index.ext_get
  intro k
  ext c
  rw [hmem, PartA.mem_get_location, hcallers]
  constructor
  · intro h
    obtain ⟨⟨b, hb, rfl⟩, hkey⟩ := h
    exact ⟨b, hb, hcallees b hb ▸ hkey, rfl⟩
  · intro h
    obtain ⟨b, hb, hkey, rfl⟩ := h
    exact ⟨⟨b, hb, rfl⟩, hcallees b hb ▸ hkey⟩

/-- **The two ways to build the map.** The double loop over the expanded callees
builds the map that part A builds from blocks that list them. -/
theorem location_eq_partA {extended : String → Finset String}
    (hext : ∀ c ∈ cc.keySet, extend cc ord e c = .ok (extended c))
    (h : Lists extended cc.keySet bs) :
    initInterLocation cc ord e = .ok (bs.foldl PartA.actions.runBlock PartA.init).location := by
  obtain ⟨location, hloc, hmem⟩ := exists_initInterLocation hext
  rw [hloc, h.location_eq hmem]

/-- With `expandLevel = 0` a caller is expanded to its callees. -/
theorem extend_zero {c : String} {s : Finset String} (h : cc.get c = some s) :
    extend cc ord 0 c = .ok s := by
  -- at level one the recursion stops at once
  have hleaf : ∀ (l result : List String),
      l.foldl (fun result callee => expansion cc ord 0 result callee (0 + 1)) result =
        result := by
    intro l
    induction l with
    | nil => exact fun _ => rfl
    | cons x l ih =>
      intro result
      rw [List.foldl_cons, expansion, if_pos (by decide), ih]
  rw [extend_eq (by decide), expanded, expansion, if_neg (by decide), h]
  dsimp only
  split
  · rw [hleaf, List.erase_nil, List.nil_append, Iteration.list_toFinset]
  · next hempty => simp [Finset.not_nonempty_iff_eq_empty.mp hempty]

/-- **Without expansion** the map is that of part A on the same blocks. -/
theorem location_zero (hbs : (bs.map Block.caller).Nodup) :
    initInterLocation (lastCallees bs) ord 0 =
      .ok (bs.foldl PartA.actions.runBlock PartA.init).location := by
  have hext : ∀ c ∈ (lastCallees bs).keySet,
      extend (lastCallees bs) ord 0 c = .ok (((lastCallees bs).get c).getD ∅) := by
    intro c hc
    obtain ⟨s, hs⟩ := HashMap.exists_get_of_mem hc
    rw [extend_zero hs, hs, Option.getD_some]
  obtain ⟨location, hloc, hmem⟩ := exists_initInterLocation hext
  rw [hloc, Except.ok.injEq]
  apply Index.ext_get
  intro k
  ext c
  rw [hmem, PartA.mem_get_location]
  constructor
  · intro h
    obtain ⟨hc, hkey⟩ := h
    obtain ⟨s, hs⟩ := HashMap.exists_get_of_mem hc
    obtain ⟨b, hb, rfl, -, rfl⟩ := (get_lastCallees hbs).mp hs
    rw [hs, Option.getD_some] at hkey
    exact ⟨b, hb, hkey, rfl⟩
  · intro h
    obtain ⟨b, hb, hkey, rfl⟩ := h
    -- a block with a key has callees, so it is stored
    have hne : b.callees ≠ [] := by
      obtain ⟨x, hx, -⟩ := hkey
      exact List.ne_nil_of_mem (List.mem_toFinset.mp hx)
    have hs := (get_lastCallees hbs).mpr ⟨b, hb, rfl, hne, rfl⟩
    refine ⟨HashMap.mem_keySet_of_get hs, ?_⟩
    rwa [hs, Option.getD_some]

end AgainstA

/--
**The expansion variant against part A.**

1. For every call graph and expansion level, and any orders of the loops, let `extended c` be
   the set that `getCalleeExtend` computes for the caller `c`. The map built by
   `initInterLocation` is the one part A builds from one block for each caller that lists its
   set, in any order; so the two programs print the same lines, for all thresholds.
2. Unless `expandLevel` is the largest `int`, there is such a set for every caller, also on
   cyclic call graphs.
3. With `expandLevel = 0` and pairwise different caller headers, this variant
   prints the same lines as part A on the same text.
-/
theorem expand_eq_partA :
    (∀ (cc : CallerCallee) (expand : ExpandOrder) (e : Int) (extended : String → Finset String)
      (bs : List Block), (∀ c ∈ cc.keySet, extend cc expand e c = .ok (extended c)) →
      Lists extended cc.keySet bs →
      initInterLocation cc expand e =
          .ok (bs.foldl PartA.actions.runBlock PartA.init).location ∧
        ∀ (ord ordA : PrintOrder) (s : Int) (t : ℚ), ∃ out outA,
          (initInterLocation cc expand e >>= fun location => printBug ord location s t) =
            .ok out ∧
          PartA.run ordA bs s t = .ok outA ∧ out.Perm outA) ∧
    (∀ (cc : CallerCallee) (expand : ExpandOrder) (e : Int), e < maxInt →
      ∀ c, ∃ s, extend cc expand e c = .ok s) ∧
    ∀ (text : List Char) (expand : ExpandOrder) (ord ordA : PrintOrder) (s : Int) (t : ℚ),
      ((blocks text).map Block.caller).Nodup →
      ∃ out outA, main ord expand 0 text s t = .ok out ∧ PartA.main ordA text s t = .ok outA ∧
        out.Perm outA := by
  refine ⟨fun cc expand e extended bs hext h => ?_, fun cc expand e he c => ⟨_, extend_eq he⟩,
    fun text expand ord ordA s t hbs => ?_⟩
  · have hloc := location_eq_partA hext h
    refine ⟨hloc, fun ord ordA s t => ?_⟩
    rw [hloc, ok_bind]
    exact (PartA.run_prints ord bs s t).perm (PartA.run_prints ordA bs s t)
  · rw [main, scanLoop_eq_blocks, foldl_callerCallee, location_zero hbs, ok_bind,
      PartA.main_eq_run]
    exact (PartA.run_prints ord _ s t).perm (PartA.run_prints ordA _ s t)

/-- A text with two blocks, of which the first caller calls the second. -/
def nested : List Char :=
  ("Call graph node for function: 'f'<<0x1>>  #uses=1\n" ++
    "  CS<0x2> calls function 'A'\n  CS<0x3> calls function 'B'\n\n" ++
    "Call graph node for function: 'A'<<0x4>>  #uses=1\n  CS<0x5> calls function 'C'\n\n").toList

theorem expand_eq_partA_nested :
    (∃ bs : List Block, initInterLocation (lastCallees (blocks nested)) default 1 =
      .ok (bs.foldl PartA.actions.runBlock PartA.init).location) ∧
    ∃ out outA, main default default 0 nested 3 (65 / 100) = .ok out ∧
      PartA.main default nested 3 (65 / 100) = .ok outA ∧ out.Perm outA := by
  have hext : ∀ c ∈ (lastCallees (blocks nested)).keySet,
      extend (lastCallees (blocks nested)) default 1 c =
        .ok (expanded (lastCallees (blocks nested)) default 1 c) := fun c _ =>
    extend_eq (by decide)
  obtain ⟨bs, hbs⟩ := exists_lists (expanded (lastCallees (blocks nested)) default 1)
    (lastCallees (blocks nested)).keySet
  exact ⟨⟨bs, (expand_eq_partA.1 _ _ _ _ bs hext hbs).1⟩,
    expand_eq_partA.2.2 nested default default default 3 (65 / 100) (by decide +kernel)⟩

end Pipair.PartC.Expand
