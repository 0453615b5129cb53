import Pipair.Library.Unfolding
import Pipair.PartC.Depth

/-!
# Part C, what the expansion computes

`getCalleeExtend` of `Group63/pi/partC/pipair_java2.java` works on one list for
the whole recursion: every call takes the first occurrence of its function out
and puts the callees in, whichever call had put that occurrence there.

As multisets this does not matter. A call that finds its function in the list
exchanges one occurrence of it for the leaves of its call tree (`Exchanges`), so
the list always holds what is pending besides the leaves found so far. From this
follow what is returned at the end, and that no `remove` below the first level
comes to nothing (`expansion_leaves`).

All this takes that the levels get above `expandLevel`. With the largest `int` they do
not, and a function that calls itself is unfolded without end (`expansion_not_total`).
-/

namespace Pipair.PartC.Expand

-- ---------------------------------------------------------------------------
-- The call tree
-- ---------------------------------------------------------------------------

section CallTree

variable (callerCallee : CallerCallee) (ord : ExpandOrder)

/-- The callees recorded for a function, in the order of the loop. -/
def calleeList (f : String) : List String :=
  match callerCallee.get f with
  | none => []
  | some callees => (ord.callees f).list callees

/-- The calls unfolded from `f`, `n` calls deep. -/
def callTree (n : Nat) (f : String) : RoseTree String :=
  RoseTree.unfold (calleeList callerCallee ord) n f

/-- The arguments of a call of `getCalleeExtend`. -/
structure Call where
  result : List String
  caller : String
  levelCount : Int

/-- A call makes another one: for a callee of its function, with the list as the calls
for the callees before it leave it. -/
inductive Makes (expandLevel : Int) : Call → Call → Prop
  | callee {call : Call} {callees : Finset String} {pre post result : List String}
      {callee : String} {depth : Nat} :
      ¬ call.levelCount > expandLevel → callerCallee.get call.caller = some callees →
      (ord.callees call.caller).list callees = pre ++ callee :: post →
      pre.foldlM (fun result callee => getCalleeExtend callerCallee ord expandLevel depth
          result callee (intAdd call.levelCount 1))
        (call.result.erase call.caller ++ (ord.callees call.caller).list callees) =
          .ok result →
      Makes expandLevel call ⟨result, callee, intAdd call.levelCount 1⟩

/-- Every function with an entry has a callee. -/
def NonemptyCallees : Prop := ∀ f s, callerCallee.get f = some s → s.Nonempty

end CallTree

section Leaves

variable {cc : CallerCallee} {ord : ExpandOrder} {e level : Int} {n : Nat} {f g : String}

theorem calleeList_of_get {s : Finset String} (hs : cc.get f = some s) :
    calleeList cc ord f = (ord.callees f).list s := by
  rw [calleeList, hs]

theorem mem_calleeList : g ∈ calleeList cc ord f ↔ Calls cc f g := by
  rw [calleeList, Calls]
  cases cc.get f with
  | none => simp
  | some s => simp

theorem walk_calleeList {k : Nat} :
    Walk (fun x y => y ∈ calleeList cc ord x) k f g ↔ Walk (Calls cc) k f g := by
  have hrel : (fun x y => y ∈ calleeList cc ord x) = Calls cc := by
    funext x y
    exact propext mem_calleeList
  rw [hrel]

theorem calleeList_eq_nil_iff (hne : NonemptyCallees cc) :
    calleeList cc ord f = [] ↔ f ∉ cc.keySet := by
  rw [List.eq_nil_iff_forall_not_mem, cc.mem_keySet, Option.isSome_iff_exists]
  simp only [mem_calleeList, Calls]
  constructor
  · intro h hkey
    obtain ⟨s, hs⟩ := hkey
    obtain ⟨g, hg⟩ := hne f s hs
    exact h g ⟨s, hs, hg⟩
  · intro h g hcall
    obtain ⟨s, hs, -⟩ := hcall
    exact h ⟨s, hs⟩

/-- The leaves are the nodes at full depth, and those above it whose function is no key. -/
theorem leaf_callTree_iff (hne : NonemptyCallees cc) {d : Nat} :
    (callTree cc ord n f).Leaf d g ↔
      Walk (Calls cc) d f g ∧ (d = n ∨ (d < n ∧ g ∉ cc.keySet)) := by
  rw [callTree, RoseTree.leaf_unfold_iff, walk_calleeList, calleeList_eq_nil_iff hne]

-- ---------------------------------------------------------------------------
-- The balance of a call
-- ---------------------------------------------------------------------------

/-- A call at this level that finds its function in the list exchanges one occurrence
of it for the leaves of its call tree. -/
def Exchanges (cc : CallerCallee) (ord : ExpandOrder) (e level : Int) (n : Nat) : Prop :=
  ∀ f result, f ∈ result → ((expansion cc ord e result f level : List String) :
    Multiset String) = (result : Multiset String).erase f + ((callTree cc ord n f).leaves : List _)

/-- To exchange a function for itself is to leave the list as it is. -/
theorem exchange_self {result : List String} (hf : f ∈ result) :
    (result : Multiset String).erase f + ([f] : List String) = result := by
  rw [Multiset.coe_singleton, add_comm, Multiset.singleton_add,
    Multiset.cons_erase (Multiset.mem_coe.mpr hf)]

/-- The loop over callees that are pending in the list. -/
theorem Exchanges.foldl (h : Exchanges cc ord e level n) {pending result : List String}
    {base : Multiset String} (hresult : (result : Multiset String) = base + pending) :
    ((pending.foldl (fun result callee => expansion cc ord e result callee level) result :
      List String) : Multiset String) =
      base + (pending.flatMap fun f => (callTree cc ord n f).leaves : List String) :=
  foldl_replace (fun f _ result hf => h f result hf) hresult

/-- **A call for a key**: whatever the list, the first occurrence of the function goes,
and the leaves of the tree come. -/
theorem Exchanges.call (h : Exchanges cc ord e (level + 1) n) (hne : NonemptyCallees cc)
    (hlevel : level ≤ e) {s : Finset String} (hs : cc.get f = some s) (result : List String) :
    ((expansion cc ord e result f level : List String) : Multiset String) =
      (result.erase f : List String) + ((callTree cc ord (n + 1) f).leaves : List String) := by
  have hlist : calleeList cc ord f = (ord.callees f).list s := calleeList_of_get hs
  have hnil : calleeList cc ord f ≠ [] := by
    rw [ne_eq, calleeList_eq_nil_iff hne, not_not]
    exact HashMap.mem_keySet_of_get hs
  rw [expansion, if_neg (by omega), hs]
  dsimp only
  rw [if_pos (hne f s hs), h.foldl (Multiset.coe_add _ _).symm, callTree,
    RoseTree.leaves_unfold_succ hnil, hlist]
  rfl

/-- **The balance invariant** holds at every level, `n` calls above the last one. -/
theorem exchanges (hne : NonemptyCallees cc) (hn : (n : Int) = e + 1 - level) :
    Exchanges cc ord e level n := by
  induction n generalizing level with
  | zero =>
    intro f result hf
    rw [expansion, if_pos (by omega), callTree, RoseTree.leaves_unfold_zero,
      exchange_self hf]
  | succ n ih =>
    intro f result hf
    have hnext : Exchanges cc ord e (level + 1) n := ih (by omega)
    cases hs : cc.get f with
    | none =>
      have hnil : calleeList cc ord f = [] := by
        rw [calleeList, hs]
      rw [expansion, if_neg (by omega), hs, callTree, RoseTree.leaves_unfold_nil hnil,
        exchange_self hf]
    | some s =>
      rw [hnext.call hne (by omega) hs result, Multiset.coe_erase]

/-- **What the expansion returns**: the leaves of the call tree. -/
theorem expansion_perm (hne : NonemptyCallees cc) (he : 0 ≤ e) (hc : f ∈ cc.keySet) :
    (expansion cc ord e [] f 0).Perm (callTree cc ord (e.toNat + 1) f).leaves := by
  obtain ⟨s, hs⟩ := HashMap.exists_get_of_mem hc
  have hexch : Exchanges cc ord e (0 + 1) e.toNat := exchanges hne (by omega)
  have hcall := hexch.call hne he hs []
  rw [List.erase_nil, Multiset.coe_nil, zero_add] at hcall
  exact Multiset.coe_eq_coe.mp hcall

/-- **Step lemma.** A call that is made finds its function in the list, one level further
down. -/
theorem Makes.mem_result (hne : NonemptyCallees cc) (hmax : e < maxInt) {call call' : Call}
    (hlevel : 0 ≤ call.levelCount) (h : Makes cc ord e call call') :
    call'.levelCount = call.levelCount + 1 ∧ call'.caller ∈ call'.result := by
  cases h with
  | @callee callees pre post result callee depth hle hs hlist hrun =>
    have hnext : intAdd call.levelCount 1 = call.levelCount + 1 :=
      intAdd_eq (by omega) (by omega)
    rw [hnext] at hrun
    have hresult := Loop.foldlM_eq (fun _ _ _ hround => eq_expansion hmax (by omega) hround) hrun
    refine ⟨hnext, ?_⟩
    subst hresult
    have hexch : Exchanges cc ord e (call.levelCount + 1) (e - call.levelCount).toNat :=
      exchanges hne (by omega)
    -- besides the callees before it, the list holds the ones from this on
    have hresult : ((call.result.erase call.caller ++ (ord.callees call.caller).list callees :
        List String) : Multiset String) =
          ((call.result.erase call.caller ++ callee :: post : List String) : Multiset String) +
            (pre : List String) := by
      rw [hlist, Multiset.coe_add, Multiset.coe_eq_coe, List.append_assoc]
      exact List.perm_append_comm.append_left _
    have hmem : callee ∈ (((call.result.erase call.caller ++ callee :: post : List String) :
        Multiset String) + (pre.flatMap fun f =>
          (callTree cc ord (e - call.levelCount).toNat f).leaves : List String)) := by
      simp
    rw [← hexch.foldl hresult, Multiset.mem_coe] at hmem
    exact hmem

/-- **Every `remove` below the first level removes something.** -/
theorem mem_result_of_makes (hne : NonemptyCallees cc) (hmax : e < maxInt) {start call : Call}
    (hstart : start.levelCount = 0)
    (h : Relation.ReflTransGen (Makes cc ord e) start call) (hlevel : 1 ≤ call.levelCount) :
    call.caller ∈ call.result := by
  have hinv : 0 ≤ call.levelCount ∧ (1 ≤ call.levelCount → call.caller ∈ call.result) := by
    clear hlevel
    induction h with
    | refl => exact ⟨hstart.ge, fun hlevel => by omega⟩
    | tail _ hmakes ih =>
      obtain ⟨hnext, hmem⟩ := hmakes.mem_result hne hmax ih.1
      exact ⟨by omega, fun _ => hmem⟩
  exact hinv.2 hlevel

/-- The set of a caller, whatever the orders of the loops. -/
theorem mem_expanded_iff (hne : NonemptyCallees cc) (he : 0 ≤ e) (hc : f ∈ cc.keySet) :
    g ∈ expanded cc ord e f ↔ Walk (Calls cc) (e.toNat + 1) f g ∨
      ∃ k : Nat, 1 ≤ k ∧ (k : Int) ≤ e ∧ Walk (Calls cc) k f g ∧ g ∉ cc.keySet := by
  rw [expanded, List.mem_toFinset, (expansion_perm hne he hc).mem_iff, callTree,
    RoseTree.mem_leaves_unfold_iff, ← callTree]
  simp only [leaf_callTree_iff hne]
  constructor
  · intro h
    obtain ⟨d, hw, rfl | ⟨hlt, hg⟩⟩ := h
    · exact Or.inl hw
    · refine Or.inr ⟨d, ?_, by omega, hw, hg⟩
      -- the root is a key
      cases d with
      | zero => exact absurd (Walk.zero_iff.mp hw ▸ hc) hg
      | succ d => omega
  · rintro (hw | ⟨k, -, hk, hw, hg⟩)
    · exact ⟨_, hw, Or.inl rfl⟩
    · exact ⟨k, hw, Or.inr ⟨by omega, hg⟩⟩

end Leaves

/--
**Expansion computes the leaves of the bounded unfolding.** Let every recorded
function have a callee, `expandLevel = e ≥ 0` be less than the largest `int` and `c` be a
key; cycles are allowed, and the loops may have any orders. Then `getCalleeExtend` returns
a list for `c`, and more depth makes no difference.

1. The list has every function as often as it labels a leaf of the call tree of `c`,
   `e + 1` calls deep.
2. The leaves of that tree are the nodes at depth `e + 1`, and those at depths `1` to
   `e` whose function is not a key.
3. Every call made at a level of at least one, however far down the recursion, finds
   its function in the list.
4. So the set stored for `c` has the functions reached by a chain of exactly `e + 1`
   calls, and by one of `1` to `e` calls to a function without recorded callees.
-/
theorem expansion_leaves (cc : CallerCallee) (ord : ExpandOrder) (e : Int) (c : String)
    (hne : NonemptyCallees cc) (he : 0 ≤ e) (hmax : e < maxInt) (hc : c ∈ cc.keySet) :
    ∃ list, (∀ depth, callDepth cc e ≤ depth → getCalleeExtend cc ord e depth [] c 0 = .ok list) ∧
    (∀ g, list.count g = (callTree cc ord (e.toNat + 1) c).leaves.count g) ∧
    (∀ (d : Nat) g, (callTree cc ord (e.toNat + 1) c).Leaf d g ↔
      Walk (Calls cc) d c g ∧
        ((d : Int) = e + 1 ∨ (1 ≤ d ∧ (d : Int) ≤ e ∧ g ∉ cc.keySet))) ∧
    (∀ call, Relation.ReflTransGen (Makes cc ord e) ⟨[], c, 0⟩ call → 1 ≤ call.levelCount →
      call.caller ∈ call.result) ∧
    ∃ m extendCallees, callerCalleeExtend cc ord e = .ok m ∧ m.get c = some extendCallees ∧
      ∀ g, g ∈ extendCallees ↔ Walk (Calls cc) (e.toNat + 1) c g ∨
        ∃ k : Nat, 1 ≤ k ∧ (k : Int) ≤ e ∧ Walk (Calls cc) k c g ∧ g ∉ cc.keySet := by
  have hext : ∀ c ∈ cc.keySet, extend cc ord e c = .ok (expanded cc ord e c) :=
    fun c _ => extend_eq hmax
  obtain ⟨m, hm, -, hget⟩ := callerCalleeExtend_eq hext
  refine ⟨expansion cc ord e [] c 0, fun depth hd => getCalleeExtend_zero hmax hd, ?count, ?leaves,
    ?remove, m, expanded cc ord e c, hm, hget c hc, fun g => mem_expanded_iff hne he hc⟩
  case count =>
    intro g
    exact (expansion_perm hne he hc).count_eq g
  case leaves =>
    intro d g
    rw [leaf_callTree_iff hne]
    refine and_congr_right fun hw => ?_
    -- the root, at depth zero, is a key
    have hroot : g ∉ cc.keySet → 1 ≤ d := by
      intro hg
      cases d with
      | zero => exact absurd (Walk.zero_iff.mp hw ▸ hc) hg
      | succ d => omega
    constructor
    · rintro (rfl | ⟨hlt, hg⟩)
      · exact Or.inl (by omega)
      · exact Or.inr ⟨hroot hg, by omega, hg⟩
    · rintro (heq | ⟨-, hle, hg⟩)
      · exact Or.inl (by omega)
      · exact Or.inr ⟨by omega, hg⟩
  case remove =>
    intro call h hlevel
    exact mem_result_of_makes hne hmax rfl h hlevel

/-- Two functions that call each other, and the first also itself and a third one. -/
def cyclic : CallerCallee := (HashMap.empty.put "f" {"f", "g", "h"}).put "g" {"f"}

theorem expansion_leaves_cyclic :
    ∃ list, (∀ g, list.count g = (callTree cyclic default 2 "f").leaves.count g) ∧
      getCalleeExtend cyclic default 1 (callDepth cyclic 1) [] "f" 0 = .ok list := by
  have hne : NonemptyCallees cyclic := by
    intro f s h
    rw [cyclic, HashMap.get_put, HashMap.get_put] at h
    split at h
    · exact Option.some.inj h ▸ ⟨"f", by decide⟩
    · split at h
      · exact Option.some.inj h ▸ ⟨"f", by decide⟩
      · exact absurd h (by simp)
  obtain ⟨list, hrun, hcount, -⟩ :=
    expansion_leaves cyclic default 1 "f" hne (by decide) (by decide) (by decide)
  exact ⟨list, hcount, hrun _ le_rfl⟩

/-- A function that calls itself. -/
def recursive : CallerCallee := HashMap.empty.put "f" {"f"}

/-- With the largest `int` for `expandLevel` a function that calls itself is expanded without
end. -/
theorem expansion_not_total :
    ¬ ∀ (cc : CallerCallee) (ord : ExpandOrder) (e : Int) (c : String), NonemptyCallees cc →
      0 ≤ e → c ∈ cc.keySet → ∃ depth list, getCalleeExtend cc ord e depth [] c 0 = .ok list := by
  intro h
  have hcall : Calls recursive "f" "f" := ⟨{"f"}, by decide, by decide⟩
  have hne : NonemptyCallees recursive := by
    intro f s hs
    rw [recursive, HashMap.get_put] at hs
    split at hs
    · exact Option.some.inj hs ▸ ⟨"f", by decide⟩
    · exact absurd hs (by simp)
  obtain ⟨depth, hlist⟩ := h recursive default maxInt "f" hne (by decide) (by decide)
  have hwalk : ∀ k, Walk (Calls recursive) k "f" "f" := by
    intro k
    induction k with
    | zero => exact .refl "f"
    | succ k ih => exact ih.tail hcall
  exact (exists_getCalleeExtend_iff le_rfl (by decide)).mp hlist "f" (hwalk depth)

end Pipair.PartC.Expand
