import Pipair.Counting

/-!
# The two stores of the counting version

`qi/partA/pipair_java.java` keeps the lists of `map` and the callers of
`location` side by side, and `printBug` goes from one to the other without a
check. `Consistent` says what it relies on: both stores tell the same story about
the blocks read so far, the one being read included. It holds after every callee
line of every run (`stores_consistent`), so no lookup comes back with null and no
confidence exceeds 1.
-/

namespace Pipair.Counting

open Mining

/-- The state after the callee lines `cs` of a block of `caller`, behind the blocks `bs`. -/
def afterLines (ord : CountOrder) (bs : List Block) (caller : String) (cs : List String) :
    Except Fault State :=
  cs.foldl (fun st callee => (actions ord).callee st callee caller)
    ((actions ord).header (bs.foldl (actions ord).runBlock (.ok init)))

/-- `countMap` of `printBug` for one key and its list. -/
def countMap (key : String) (valueList : List String) : HashMap (Finset String) Nat :=
  tally (fun elem => ({key, elem} : Finset String)) valueList

/-- The stores after the blocks `bs`, the last of which may still be read. -/
structure Consistent (bs : List Block) (st : State) : Prop where
  /-- Each of two functions is in the list of the other once for every block with both. -/
  pair : ∀ a b, a ≠ b →
    count st.map a b = bs.countP (fun bl => a ∈ bl.callees ∧ b ∈ bl.callees) ∧
      count st.map b a = bs.countP (fun bl => a ∈ bl.callees ∧ b ∈ bl.callees)
  self : ∀ a, count st.map a a = bs.countP fun bl => a ∈ bl.callees
  key : ∀ a b, a ≠ b → ({a, b} ∈ st.location.keys ↔ ∃ l, st.map.get a = some l ∧ b ∈ l)
  subset : ∀ a b, a ≠ b →
    st.location.get {a, b} ⊆ st.location.get {a} ∧ st.location.get {a, b} ⊆ st.location.get {b}
  /-- The next call of `addValueToMap` finds the lists it adds to. -/
  adds : ∀ ord addValue addLocation, ∃ st', addValueToMap ord st addValue addLocation = .ok st'
  /-- `supportKey` is a positive number, every key of `countMap` is one of `location`, and
  no confidence exceeds 1. -/
  supportKey : ∀ a l, st.map.get a = some l →
    {a} ∈ st.location.keys ∧ ∃ n, (countMap a l).get {a} = some n ∧ n ≠ 0 ∧
      ∀ k ∈ (countMap a l).keySet, k ∈ st.location.keys ∧
        ∃ m, (countMap a l).get k = some m ∧ (m : ℚ) / n ≤ 1
  /-- `printBug` ends normally. -/
  prints : ∀ ord s t, ∃ out, printBug ord st s t = .ok out

-- ---------------------------------------------------------------------------
-- A run
-- ---------------------------------------------------------------------------

/-- At the end of a run every function with a list is in it, and the functions of
the last block have lists. -/
theorem run_listed (ord : CountOrder) (bs : List Block) :
    ∃ st, bs.foldl (actions ord).runBlock (.ok init) = .ok st ∧ Listed st ∧
      ∀ a ∈ st.nearByCallees, ∃ l, st.map.get a = some l := by
  induction bs using List.reverseRecOn with
  | nil =>
    refine ⟨init, rfl, ?_, ?_⟩
    · intro a l hl
      exact absurd hl (by simp [init])
    · intro a ha
      exact absurd ha (by simp [init, PartA.init])
  | append_singleton bs b ih =>
    obtain ⟨st, hst, hlisted, -⟩ := ih
    obtain ⟨st', hst', -, hinv, hlisted'⟩ :=
      callees_spec ord b.caller b.callees (Counted.header st)
    refine ⟨st', ?_, hlisted' hlisted, hinv.known⟩
    rw [List.foldl_append, hst]
    exact hst'

/-- The footer does nothing, so a block broken off after any of its lines is a block. -/
theorem afterLines_eq (ord : CountOrder) (bs : List Block) (caller : String) (cs : List String) :
    afterLines ord bs caller cs =
      (bs ++ [Block.mk caller cs]).foldl (actions ord).runBlock (.ok init) := by
  rw [List.foldl_append]
  rfl

-- ---------------------------------------------------------------------------
-- The lookups
-- ---------------------------------------------------------------------------

section Lookups

variable {bs : List Block} {st : State}

/-- What a run establishes about the lists, as far as the lookups need it. -/
structure Stored (bs : List Block) (st : State) : Prop where
  count : ∀ a b, count st.map a b = bs.countP fun bl => a ∈ bl.callees ∧ b ∈ bl.callees
  listed : Listed st
  known : ∀ a ∈ st.nearByCallees, ∃ l, st.map.get a = some l
  location : ∀ k c, c ∈ st.location.get k ↔
    ∃ bl ∈ bs, PartA.PairKey bl.callees.toFinset k ∧ c = bl.caller

/-- **Run lemma.** -/
theorem stored_run (ord : CountOrder) (bs : List Block) :
    ∃ st, bs.foldl (actions ord).runBlock (.ok init) = .ok st ∧ Stored bs st := by
  obtain ⟨st, hst, hA, hcount⟩ := count_run ord bs
  obtain ⟨st', hst', hlisted, hknown⟩ := run_listed ord bs
  obtain rfl := Except.ok.inj (hst.symm.trans hst')
  refine ⟨st, hst, hcount, hlisted, hknown, ?_⟩
  rw [show st.location = st.toState.location from rfl, hA]
  exact PartA.mem_get_location bs

/-- A round of the loop over `countMap` prints without a fault. -/
theorem printCallers_ok {location : Location} {elems callers : Iteration String} {a b : String}
    (hab : a ≠ b) (hkey : {a, b} ∈ location.keys) (ha : {a} ∈ location.keys) (n : Nat)
    (t : ℚ) : ∃ out, printCallers (fun _ _ _ => .ok false) elems callers location
      {a} {a, b} a n t = .ok out := by
  obtain ⟨x, y, hpair⟩ : ∃ x y, elems.list {a, b} = [x, y] := by
    rcases elems.list_pair hab with hpair | hpair
    · exact ⟨a, b, hpair⟩
    · exact ⟨b, a, hpair⟩
  simp only [printCallers, hpair, element_zero, element_one, ok_bind,
    Index.lookup_of_mem_keys ha, Index.lookup_of_mem_keys hkey, deref_some]
  exact exists_forEach fun c _ => ⟨_, rfl⟩

namespace Stored

/-- The functions in the list of `a` are those that have a block with `a`. -/
theorem mem_list (h : Stored bs st) {a b : String} :
    (∃ l, st.map.get a = some l ∧ b ∈ l) ↔ ∃ bl ∈ bs, a ∈ bl.callees ∧ b ∈ bl.callees := by
  have hpos : (∃ l, st.map.get a = some l ∧ b ∈ l) ↔ 0 < Counting.count st.map a b := by
    rw [Counting.count, List.count_pos_iff]
    cases hl : st.map.get a with
    | none => simp
    | some l => simp
  rw [hpos, h.count, List.countP_pos_iff]
  simp only [decide_eq_true_eq]

/-- The places of a pair, which may be one function twice. -/
theorem mem_get (h : Stored bs st) {a b c : String} :
    c ∈ st.location.get {a, b} ↔ ∃ bl ∈ bs, (a ∈ bl.callees ∧ b ∈ bl.callees) ∧ c = bl.caller := by
  simp only [h.location, PartA.pairKey_pair, List.mem_toFinset]

/-- So a pair is a key of `location` when one function is in the list of the other. -/
theorem mem_keys (h : Stored bs st) {a b : String} :
    {a, b} ∈ st.location.keys ↔ ∃ l, st.map.get a = some l ∧ b ∈ l := by
  rw [h.mem_list, Index.mem_keys_iff]
  constructor
  · intro hne
    obtain ⟨c, hc⟩ := hne
    obtain ⟨bl, hbl, hboth, -⟩ := h.mem_get.mp hc
    exact ⟨bl, hbl, hboth⟩
  · intro hex
    obtain ⟨bl, hbl, hboth⟩ := hex
    exact ⟨bl.caller, h.mem_get.mpr ⟨bl, hbl, hboth, rfl⟩⟩

theorem singleton_mem_keys (h : Stored bs st) {a : String} {l : List String}
    (hl : st.map.get a = some l) : {a} ∈ st.location.keys := by
  rw [← Finset.pair_eq_singleton, h.mem_keys]
  exact ⟨l, hl, h.listed a l hl⟩

theorem get_subset (h : Stored bs st) (a b : String) :
    st.location.get {a, b} ⊆ st.location.get {a} := by
  intro c hc
  obtain ⟨bl, hbl, ⟨ha, -⟩, hcaller⟩ := h.mem_get.mp hc
  rw [← Finset.pair_eq_singleton, h.mem_get]
  exact ⟨bl, hbl, ⟨ha, ha⟩, hcaller⟩

/-- The list of a function has no other function more often than the function itself. -/
theorem count_le (h : Stored bs st) {a : String} {l : List String}
    (hl : st.map.get a = some l) (b : String) : l.count b ≤ l.count a := by
  have hcount : ∀ x, l.count x = Counting.count st.map a x := fun x => by
    rw [Counting.count, hl, Option.getD_some]
  rw [hcount, hcount, h.count, h.count]
  refine List.countP_mono_left fun bl _ hboth => ?_
  simp only [decide_eq_true_eq] at hboth ⊢
  exact ⟨hboth.1, hboth.1⟩

theorem get_countMap_self (h : Stored bs st) {a : String} {l : List String}
    (hl : st.map.get a = some l) :
    (countMap a l).get {a} = some (l.count a) ∧ l.count a ≠ 0 := by
  have hpos : l.count a ≠ 0 := (List.count_pos_iff.mpr (h.listed a l hl)).ne'
  refine ⟨?_, hpos⟩
  rw [countMap, ← Finset.pair_eq_singleton]
  exact get_tally_pair.mpr ⟨rfl, hpos⟩

/-- The keys of `countMap`: a function of the list, and how often it is there. -/
theorem get_countMap (h : Stored bs st) {a : String} {l : List String}
    (hl : st.map.get a = some l) {k : Finset String} (hk : k ∈ (countMap a l).keySet) :
    ∃ b, k = {a, b} ∧ {a, b} ∈ st.location.keys ∧
      (countMap a l).get {a, b} = some (l.count b) ∧
      (l.count b : ℚ) / (l.count a : ℚ) ≤ 1 := by
  obtain ⟨n, hn⟩ := HashMap.exists_get_of_mem hk
  obtain ⟨b, rfl⟩ := exists_pair_of_tally hn
  obtain ⟨rfl, hpos⟩ := get_tally_pair.mp hn
  refine ⟨b, rfl, ?_, hn, ?_⟩
  · rw [h.mem_keys]
    exact ⟨l, hl, List.count_pos_iff.mp (Nat.pos_of_ne_zero hpos)⟩
  · refine div_le_one_of_le₀ ?_ (Nat.cast_nonneg _)
    exact_mod_cast h.count_le hl b

theorem addValueToMap_ok (h : Stored bs st) (ord : CountOrder) (x c : String) :
    ∃ st', addValueToMap ord st x c = .ok st' := by
  by_cases hx : x ∈ st.nearByCallees
  · exact ⟨st, by rw [addValueToMap, if_pos hx]; rfl⟩
  · obtain ⟨map, hmap, -⟩ := addValueToMap_spec ord c h.known hx
    exact ⟨_, hmap⟩

theorem printBug_ok (h : Stored bs st) (ord : CountOrder) (s : Int) (t : ℚ) :
    ∃ out, printBug ord st s t = .ok out := by
  refine exists_forEach fun a ha => ?_
  obtain ⟨l, hl⟩ := HashMap.exists_get_of_mem ((Iteration.mem_list _).mp ha)
  simp only [printKey, hl, deref_some, ok_bind]
  refine exists_forEach fun k hk => ?_
  obtain ⟨b, rfl, hkey, hget, -⟩ := h.get_countMap hl ((Iteration.mem_list _).mp hk)
  -- the key of `a` alone is the one the loop skips
  by_cases hab : a = b
  · subst hab
    exact ⟨[], by rw [if_neg (by simp)]; rfl⟩
  · have hne : ({a, b} : Finset String) ≠ {a} := fun heq =>
      hab (pair_right_inj (heq.trans (Finset.pair_eq_singleton a).symm))
    have hpair : (tally (fun elem => ({a, elem} : Finset String)) l).get {a, b} =
        some (l.count b) := hget
    have hself : (tally (fun elem => ({a, elem} : Finset String)) l).get {a} =
        some (l.count a) := (h.get_countMap_self hl).1
    rw [if_pos hne, hpair, hself, deref_some, ok_bind, deref_some, ok_bind]
    split
    · exact printCallers_ok hab hkey (h.singleton_mem_keys hl) _ _
    · exact ⟨[], rfl⟩

theorem consistent (h : Stored bs st) : Consistent bs st where
  pair a b _ := by
    refine ⟨h.count a b, (h.count b a).trans ?_⟩
    simp only [and_comm]
  self a := by
    rw [h.count]
    simp only [and_self]
  key _ _ _ := h.mem_keys
  subset a b _ := by
    refine ⟨h.get_subset a b, ?_⟩
    rw [Finset.pair_comm]
    exact h.get_subset b a
  adds := h.addValueToMap_ok
  supportKey a l hl := by
    obtain ⟨hself, hpos⟩ := h.get_countMap_self hl
    refine ⟨h.singleton_mem_keys hl, _, hself, hpos, fun k hk => ?_⟩
    obtain ⟨b, rfl, hkey, hget, hle⟩ := h.get_countMap hl hk
    exact ⟨hkey, _, hget, hle⟩
  prints := h.printBug_ok

end Stored

end Lookups

/-- **The stores are consistent** after every callee line of every run, and in the
state `printBug` starts from. The same caller may head any number of blocks. -/
theorem stores_consistent (ord : CountOrder) (bs : List Block) :
    (∀ caller cs, ∃ st, afterLines ord bs caller cs = .ok st ∧
      Consistent (bs ++ [⟨caller, cs⟩]) st) ∧
    ∃ st, bs.foldl (actions ord).runBlock (.ok init) = .ok st ∧ Consistent bs st := by
  have hrun : ∀ bs : List Block,
      ∃ st, bs.foldl (actions ord).runBlock (.ok init) = .ok st ∧ Consistent bs st := by
    intro bs
    obtain ⟨st, hst, hstored⟩ := stored_run ord bs
    exact ⟨st, hst, hstored.consistent⟩
  refine ⟨fun caller cs => ?_, hrun bs⟩
  rw [afterLines_eq]
  exact hrun _

end Pipair.Counting
