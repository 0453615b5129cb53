import Pipair.PartC.Exhaustive
import Pipair.PartC.Expanded
import Pipair.RoundTrip

/-!
# Part C, the size of the expansions

`getCalleeExtend` of `Group63/pi/partC/pipair_java2.java` keeps a function as often in its
list as there are chains of calls to it, and only the set made of the list at the end forgets
how often. So the list grows with the power of `expandLevel`: where nobody has more than `k`
callees it has up to `k ^ (expandLevel + 1)` entries (`expansion_size`), and there is a text
where it has so many, of which no more than `k` are kept. All of this is about levels and
lists that there can be: less than the largest `int`, and with no more entries than that.
-/

namespace Pipair.PartC.Expand

-- ---------------------------------------------------------------------------
-- The bound
-- ---------------------------------------------------------------------------

/-- The callees stored after a text has been read. -/
def readCallees (text : List Char) : CallerCallee := (scanLoop actions text init).callerCallee

theorem nonemptyCallees_readCallees (text : List Char) : NonemptyCallees (readCallees text) := by
  rw [readCallees, scanLoop_callerCallee]
  exact nonemptyCallees_lastCallees _

section Bound

variable {cc : CallerCallee} {ord : ExpandOrder} {e : Int} {c f : String} {k : Nat}

theorem length_calleeList {s : Finset String} (hs : cc.get f = some s) :
    (calleeList cc ord f).length = s.card := by
  rw [calleeList_of_get hs, Iteration.length_list]

theorem length_calleeList_le (h : ∀ f s, cc.get f = some s → s.card ≤ k) :
    (calleeList cc ord f).length ≤ k := by
  cases hs : cc.get f with
  | none =>
    rw [calleeList, hs]
    exact Nat.zero_le k
  | some s => exact (length_calleeList hs).trans_le (h f s hs)

theorem length_expansion_le (hne : NonemptyCallees cc)
    (h : ∀ f s, cc.get f = some s → s.card ≤ k) :
    (expansion cc ord e [] c 0).length ≤ k ^ (e + 1).toNat := by
  by_cases he : 0 ≤ e
  · by_cases hc : c ∈ cc.keySet
    · obtain ⟨s, hs⟩ := HashMap.exists_get_of_mem hc
      have hk : 1 ≤ k := (Finset.card_pos.mpr (hne c s hs)).trans_le (h c s hs)
      rw [(expansion_perm hne he hc).length_eq, callTree, Int.toNat_add he zero_le_one]
      exact RoseTree.length_leaves_unfold_le hk fun _ => length_calleeList_le h
    · -- nothing is known about the callees of the caller
      rw [expansion, if_neg (by omega), HashMap.get_eq_none hc]
      exact Nat.zero_le _
  · rw [expansion, if_pos (by omega)]
    exact Nat.zero_le _

end Bound

-- ---------------------------------------------------------------------------
-- Everybody calls everybody
-- ---------------------------------------------------------------------------

/-- The names of `k` functions. -/
def names (k : Nat) : List String := (List.range k).map numbered

/-- Each of `k` functions calls all of them. -/
def allCalling (k : Nat) : List Block := (names k).map fun f => ⟨f, names k⟩

section AllCalling

variable {k : Nat} {c f : String} {ord : ExpandOrder}

theorem isName_numbered (i : Nat) : IsName (numbered i) := by
  induction i with
  | zero => decide
  | succ i ih =>
    have hlast : quote ∉ "f".toList ∧ OneLine "f".toList := by decide
    rw [IsName, numbered, String.toList_append]
    refine ⟨fun h => ?_, oneLine_append.mpr ⟨ih.2, hlast.2⟩⟩
    exact (List.mem_append.mp h).elim ih.1 hlast.1

theorem named_allCalling (k : Nat) : Named (allCalling k) := by
  have hnames : ∀ f ∈ names k, IsName f := by
    intro f hf
    obtain ⟨i, -, rfl⟩ := List.mem_map.mp hf
    exact isName_numbered i
  intro b hb
  obtain ⟨f, hf, rfl⟩ := List.mem_map.mp hb
  exact ⟨hnames f hf, hnames⟩

theorem card_names (k : Nat) : (names k).toFinset.card = k := by
  have hnodup : (names k).Nodup := List.nodup_range.map numbered_injective
  rw [List.toFinset_card_of_nodup hnodup, names, List.length_map, List.length_range]

theorem readCallees_allCalling (k : Nat) (f : String) :
    (readCallees (write (allCalling k))).get f =
      if f ∈ names k then some (names k).toFinset else none := by
  have hfill : lastCallees (allCalling k) =
      (names k).foldl (fun m f => m.put f (names k).toFinset) HashMap.empty := by
    rw [lastCallees, allCalling, List.foldl_map]
    refine List.foldl_ext _ _ _ fun m f hf => ?_
    rw [if_neg (List.ne_nil_of_mem hf)]
  rw [readCallees, scanLoop_callerCallee, blocks_write (named_allCalling k), hfill,
    HashMap.get_foldl_put, HashMap.get_empty]

theorem keySet_allCalling (k : Nat) :
    (readCallees (write (allCalling k))).keySet = (names k).toFinset := by
  ext f
  rw [HashMap.mem_keySet, readCallees_allCalling, List.mem_toFinset]
  split
  · next h => simp [h]
  · next h => simp [h]

theorem calls_allCalling :
    Calls (readCallees (write (allCalling k))) c f ↔ c ∈ names k ∧ f ∈ names k := by
  rw [Calls, readCallees_allCalling]
  split
  · next h => simp [h]
  · next h => simp [h]

/-- A chain of calls of any length leads from each function to each. -/
theorem walk_allCalling {n : Nat} (hc : c ∈ names k) :
    Walk (Calls (readCallees (write (allCalling k)))) (n + 1) c f ↔ f ∈ names k := by
  induction n generalizing f with
  | zero =>
    rw [Walk.succ_iff]
    simp [Walk.zero_iff, calls_allCalling, hc]
  | succ n ih =>
    rw [Walk.succ_iff]
    simp only [ih, calls_allCalling]
    constructor
    · intro h
      obtain ⟨-, -, -, hf⟩ := h
      exact hf
    · intro hf
      exact ⟨c, hc, hc, hf⟩

theorem length_allCalling (ord : ExpandOrder) (e : Nat) (hc : c ∈ names k) :
    (expansion (readCallees (write (allCalling k))) ord e [] c 0).length = k ^ (e + 1) := by
  have hkey : c ∈ (readCallees (write (allCalling k))).keySet := by
    rwa [keySet_allCalling, List.mem_toFinset]
  have hk : 1 ≤ k := by
    rw [← card_names k]
    exact Finset.card_pos.mpr ⟨c, List.mem_toFinset.mpr hc⟩
  have hclosed : ∀ f, f ∈ names k →
      (calleeList (readCallees (write (allCalling k))) ord f).length = k ∧
        ∀ g ∈ calleeList (readCallees (write (allCalling k))) ord f, g ∈ names k := by
    intro f hf
    have hget := readCallees_allCalling k f
    rw [if_pos hf] at hget
    refine ⟨(length_calleeList hget).trans (card_names k), fun g hg => ?_⟩
    exact (calls_allCalling.mp (mem_calleeList.mp hg)).2
  rw [(expansion_perm (nonemptyCallees_readCallees _) (by omega) hkey).length_eq, callTree,
    Int.toNat_natCast]
  exact RoseTree.length_leaves_unfold_eq hk hclosed hc

theorem expanded_allCalling (ord : ExpandOrder) (e : Nat) (hc : c ∈ names k) :
    expanded (readCallees (write (allCalling k))) ord e c = (names k).toFinset := by
  have hkey : c ∈ (readCallees (write (allCalling k))).keySet := by
    rwa [keySet_allCalling, List.mem_toFinset]
  ext f
  rw [mem_expanded_iff (nonemptyCallees_readCallees _) (by omega) hkey, Int.toNat_natCast,
    walk_allCalling hc, List.mem_toFinset]
  refine or_iff_left_of_imp ?_
  rintro ⟨n, hn, -, hw, -⟩
  obtain ⟨m, rfl⟩ := Nat.exists_eq_succ_of_ne_zero (by omega : n ≠ 0)
  exact (walk_allCalling hc).mp hw

end AllCalling

/--
**The size of the expansions.** Whatever text is read, where no caller is stored with more than
`k` callees, the list of a caller ends up with at most `k ^ (expandLevel + 1)` entries. This is
the best bound: for each `k` there is a text of `k` callers, each of which calls all of them,
where the list of each has that many entries for every level, and the set made of it has only
the `k` functions. The level is to be less than the largest `int`, and that number no larger.
-/
theorem expansion_size (k : Nat) :
    (∀ (ord : ExpandOrder) (e : Int) (text : List Char) (c : String), e < maxInt →
      (k ^ (e + 1).toNat : Int) ≤ maxInt →
      (∀ f s, (readCallees text).get f = some s → s.card ≤ k) →
      ∃ list, getCalleeExtend (readCallees text) ord e (callDepth (readCallees text) e) [] c 0 =
          .ok list ∧ list.length ≤ k ^ (e + 1).toNat) ∧
    ∃ text, (readCallees text).keySet.card = k ∧ ∀ c ∈ (readCallees text).keySet,
      (readCallees text).get c = some (readCallees text).keySet ∧
      ∀ (ord : ExpandOrder) (e : Nat), (e : Int) < maxInt → (k ^ (e + 1) : Int) ≤ maxInt →
        (∃ list, getCalleeExtend (readCallees text) ord e (callDepth (readCallees text) e) [] c 0 =
          .ok list ∧ list.length = k ^ (e + 1)) ∧
        extend (readCallees text) ord e c = .ok (readCallees text).keySet := by
  constructor
  · intro ord e text c he _ h
    exact ⟨_, getCalleeExtend_zero he le_rfl,
      length_expansion_le (nonemptyCallees_readCallees text) h⟩
  · refine ⟨write (allCalling k), ?_, fun c hc => ?_⟩
    · rw [keySet_allCalling, card_names]
    · rw [keySet_allCalling] at hc ⊢
      have hmem : c ∈ names k := List.mem_toFinset.mp hc
      refine ⟨by rw [readCallees_allCalling, if_pos hmem], fun ord e he _ => ⟨?_, ?_⟩⟩
      · exact ⟨_, getCalleeExtend_zero he le_rfl, length_allCalling ord e hmem⟩
      · rw [extend_eq he, expanded_allCalling ord e hmem]

/-- Ten functions that call each other, and four levels. -/
theorem expansion_size_ten :
    ∃ text, (readCallees text).keySet.card = 10 ∧ ∀ c ∈ (readCallees text).keySet,
      ∃ list, getCalleeExtend (readCallees text) default (4 : Nat)
        (callDepth (readCallees text) (4 : Nat)) [] c 0 = .ok list ∧ list.length = 10 ^ 5 := by
  obtain ⟨text, hcard, hall⟩ := (expansion_size 10).2
  exact ⟨text, hcard, fun c hc => ((hall c hc).2 default 4 (by decide) (by decide)).1⟩

end Pipair.PartC.Expand
