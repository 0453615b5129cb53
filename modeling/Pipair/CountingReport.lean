import Pipair.CountingStores

/-!
# What the counting version prints

The supports of `qi/partA/pipair_java.java` are numbers of nodes, while the callers it
prints are taken from sets. When a caller heads several nodes, the two do not fit
together, and the output is not that of part A. `run_prints_counted` says what is
printed for any call graph.
-/

namespace Pipair.Counting

open Mining

/-- How many nodes call both functions. With `a = b`, how many call the function. -/
def nodesWith (bs : List Block) (a b : String) : Nat :=
  bs.countP fun bl => a ∈ bl.callees ∧ b ∈ bl.callees

/-- The share of the nodes with `a` that have `b` too. -/
def shareOf (bs : List Block) (a b : String) : ℚ := nodesWith bs a b / nodesWith bs a a

/-- The caller `c` has a node with `a` and none with both, and the pair is frequent among the
nodes with `a`. -/
structure NodeViolation (bs : List Block) (s : Int) (t : ℚ) (a b c : String) : Prop where
  ne : a ≠ b
  occurs : nodesWith bs a b ≠ 0
  support_single : s ≤ nodesWith bs a a
  support_pair : s ≤ nodesWith bs a b
  share_lt : shareOf bs a b < 1
  share_ge : t ≤ shareOf bs a b
  mem : c ∈ callersOf bs a
  notMem : c ∉ callersOfBoth bs a b

def countedLine (bs : List Block) (a b c : String) : BugLine :=
  ⟨a, c, lexicographic a b, nodesWith bs a b, shareOf bs a b⟩

section Report

variable {bs : List Block} {st : State} {s : Int} {t : ℚ} {ord : CountOrder}

theorem countedLine_inj {a b c a' b' c' : String}
    (h : countedLine bs a b c = countedLine bs a' b' c') : a = a' ∧ b = b' ∧ c = c' := by
  simp only [countedLine, BugLine.mk.injEq] at h
  obtain ⟨rfl, rfl, hpair, -, -⟩ := h
  exact ⟨rfl, lexicographic_inj hpair, rfl⟩

/-- The callers of a pair are printed with whatever support and confidence is handed over. -/
theorem printCallers_lines {location : Location} {elems callers : Iteration String}
    {a b : String} (hab : a ≠ b) (ha : {a} ∈ location.keys) (hpair : {a, b} ∈ location.keys)
    (n : Nat) (x : ℚ) :
    Prints (printCallers (fun _ _ _ => .ok false) elems callers location {a} {a, b} a n x)
      fun line => ∃ c, (c ∈ location.get {a} ∧ c ∉ location.get {a, b}) ∧
        line = ⟨a, c, lexicographic a b, n, x⟩ := by
  obtain ⟨y, z, harray, hyz⟩ : ∃ y z, elems.list {a, b} = [y, z] ∧
      lexicographic y z = lexicographic a b := by
    rcases elems.list_pair hab with h | h
    · exact ⟨a, b, h, rfl⟩
    · exact ⟨b, a, h, lexicographic_comm b a⟩
  simp only [printCallers, harray, element_zero, element_one, ok_bind, hyz,
    Index.lookup_of_mem_keys ha, Index.lookup_of_mem_keys hpair, deref_some]
  refine (Prints.loop (P := fun c line => line = BugLine.mk a c (lexicographic a b) n x)
    (Iteration.nodup_list ..) ?round ?once).congr ?same
  case round => exact fun c _ => Prints.single _
  case once =>
    rintro c - c' - line rfl h
    exact (BugLine.mk.injEq .. ▸ h).2.1
  case same =>
    intro line
    simp only [Iteration.mem_list, Finset.mem_sdiff]

/-- The list of `a` counts the nodes with `a`. -/
theorem Stored.count_list (h : Stored bs st) {a : String} {l : List String}
    (hl : st.map.get a = some l) (b : String) : l.count b = nodesWith bs a b := by
  rw [nodesWith, ← h.count, Counting.count, hl, Option.getD_some]

theorem Stored.get_single (h : Stored bs st) (a : String) :
    st.location.get {a} = callersOf bs a := by
  ext c
  rw [← Finset.pair_eq_singleton, h.mem_get, callersOf, mem_sites]
  constructor
  · rintro ⟨bl, hbl, ⟨ha, -⟩, hc⟩
    exact ⟨bl, hbl, hc, ha⟩
  · rintro ⟨bl, hbl, hc, ha⟩
    exact ⟨bl, hbl, ⟨ha, ha⟩, hc⟩

theorem Stored.get_pair (h : Stored bs st) (a b : String) :
    st.location.get {a, b} = callersOfBoth bs a b := by
  ext c
  rw [h.mem_get, callersOfBoth, mem_sites]
  constructor
  · rintro ⟨bl, hbl, hab, hc⟩
    exact ⟨bl, hbl, hc, hab⟩
  · rintro ⟨bl, hbl, hc, hab⟩
    exact ⟨bl, hbl, hab, hc⟩

/-- The loop over `countMap` for one function. -/
theorem printKey_lines (h : Stored bs st) {a : String} (ha : a ∈ st.map.keySet) :
    Prints (printKey ord st s t a)
      fun line => ∃ b c, NodeViolation bs s t a b c ∧ line = countedLine bs a b c := by
  obtain ⟨l, hl⟩ := HashMap.exists_get_of_mem ha
  simp only [printKey, hl, deref_some, ok_bind]
  refine (Prints.loop (P := fun k line => ∃ b c, k = {a, b} ∧ NodeViolation bs s t a b c ∧
    line = countedLine bs a b c) (Iteration.nodup_list ..) ?round ?once).congr ?same
  case round =>
    intro k hk
    obtain ⟨b, rfl, hkey, hget, -⟩ := h.get_countMap hl ((Iteration.mem_list _).mp hk)
    -- the key of `a` alone is the one the loop skips
    by_cases hab : a = b
    · subst hab
      rw [if_neg (by simp)]
      refine Prints.nil ?_
      rintro x ⟨b, c, hkey, hviol, -⟩
      exact hviol.ne (pair_right_inj hkey).symm
    have hne : ({a, b} : Finset String) ≠ {a} := fun heq =>
      hab (pair_right_inj (heq.trans (Finset.pair_eq_singleton a).symm))
    have hpair : (tally (fun elem => ({a, elem} : Finset String)) l).get {a, b} =
        some (nodesWith bs a b) := by rw [← h.count_list hl]; exact hget
    have hself : (tally (fun elem => ({a, elem} : Finset String)) l).get {a} =
        some (nodesWith bs a a) := by rw [← h.count_list hl]; exact (h.get_countMap_self hl).1
    have hoccurs : nodesWith bs a b ≠ 0 := (get_tally_pair.mp hpair).2
    have hkeyed : ∀ {b' c : String}, ({a, b} : Finset String) = {a, b'} →
        NodeViolation bs s t a b' c → NodeViolation bs s t a b c := by
      intro b' c hkey hviol
      rwa [← pair_right_inj hkey]
    rw [if_pos hne, hpair, hself, deref_some, ok_bind, deref_some, ok_bind]
    split
    · next hq =>
      obtain ⟨hs, hp, hlt, ht⟩ := hq
      refine (printCallers_lines hab (h.singleton_mem_keys hl) hkey _ _).congr fun line => ?_
      rw [h.get_single, h.get_pair]
      constructor
      · rintro ⟨c, ⟨hc, hn⟩, rfl⟩
        exact ⟨b, c, rfl, ⟨hab, hoccurs, hs, hp, hlt, ht, hc, hn⟩, rfl⟩
      · rintro ⟨b', c, hkey, hviol, rfl⟩
        obtain rfl := pair_right_inj hkey
        exact ⟨c, ⟨hviol.mem, hviol.notMem⟩, rfl⟩
    · next hq =>
      refine Prints.nil ?_
      rintro line ⟨b', c, hkey, hviol, -⟩
      obtain ⟨-, -, hs, hp, hlt, ht, -, -⟩ := hkeyed hkey hviol
      exact hq ⟨hs, hp, hlt, ht⟩
  case once =>
    rintro k - k' - x ⟨b, c, rfl, -, rfl⟩ ⟨b', c', rfl, -, heq⟩
    rw [(countedLine_inj heq).2.1]
  case same =>
    intro line
    constructor
    · rintro ⟨k, -, b, c, -, hviol, hline⟩
      exact ⟨b, c, hviol, hline⟩
    · rintro ⟨b, c, hviol, hline⟩
      refine ⟨{a, b}, ?_, b, c, rfl, hviol, hline⟩
      rw [Iteration.mem_list]
      exact HashMap.mem_keySet_of_get (get_tally_pair.mpr ⟨h.count_list hl b, hviol.occurs⟩)

/-- What is printed, by nodes. -/
theorem run_prints_nodes (ord : CountOrder) (bs : List Block) (s : Int) (t : ℚ) :
    Prints (run ord bs s t) fun line =>
      ∃ a b c, NodeViolation bs s t a b c ∧ line = countedLine bs a b c := by
  obtain ⟨st, hst, h⟩ := stored_run ord bs
  rw [run, hst]
  refine (Prints.loop (P := fun a line => ∃ b c, NodeViolation bs s t a b c ∧
    line = countedLine bs a b c) (Iteration.nodup_list ..) ?round ?once).congr ?same
  case round => exact fun a ha => printKey_lines h ((Iteration.mem_list _).mp ha)
  case once =>
    rintro a - a' - line ⟨b, c, -, rfl⟩ ⟨b', c', -, heq⟩
    exact (countedLine_inj heq).1
  case same =>
    intro line
    constructor
    · rintro ⟨a, -, b, c, hviol⟩
      exact ⟨a, b, c, hviol⟩
    · rintro ⟨a, b, c, hviol, hline⟩
      refine ⟨a, ?_, b, c, hviol, hline⟩
      rw [Iteration.mem_list]
      -- a function of a pair that occurs has a list
      obtain ⟨bl, hbl, hboth⟩ := List.countP_pos_iff.mp (Nat.pos_of_ne_zero hviol.occurs)
      obtain ⟨l, hl, -⟩ := h.mem_list.mpr ⟨bl, hbl, of_decide_eq_true hboth⟩
      exact HashMap.mem_keySet_of_get hl

end Report

/--
**The counting version, any call graph.** Whatever callers head several nodes, for all
thresholds and orders of the loops, the run succeeds and prints one line for every caller that
has a node with `a` and none with `{a, b}`, where the *nodes* with both are frequent and frequent
but not universal among the nodes with `a`; the line shows the number of nodes and the share.
-/
theorem run_prints_counted (ord : CountOrder) (bs : List Block) (s : Int) (t : ℚ) :
    Prints (run ord bs s t) fun line =>
      ∃ a b c, NodeViolation bs s t a b c ∧ line = countedLine bs a b c :=
  run_prints_nodes ord bs s t

end Pipair.Counting
