import Pipair.PartC.Missed

/-!
# Part C, a bound that is large enough

A level grows by at most two with every caller visited: by one for the call, and by
one more when the caller is presented to itself before. No caller is visited twice.
So twice the number of callers is more than any level, and with such a bound the
search leaves nothing out: whatever the orders, it finds the partner exactly when
some chain of calls leads to it (`searchFrom_exhaustive_iff`), and what is printed
does not depend on the orders any more (`run_prints_unreached`).

A smaller bound does not do: `exhaustive_bound_tight` has a call graph, for every
positive number of callers, in which the partner is missed with a bound one less.
-/

namespace Pipair.PartC

open Mining

-- ---------------------------------------------------------------------------
-- Nothing is left out
-- ---------------------------------------------------------------------------

/-- **The search is exhaustive** when the bound is twice the number of callers: it finds
the partner exactly when a chain of calls leads to it. -/
theorem searchFrom_exhaustive_iff {cc : CallerCallee} {e : Int} {b n : String} (ord : SearchOrder)
    (he : 2 * (cc.keySet.card : Int) ≤ e) :
    searchFrom cc ord e b n = .ok true ↔
      n ≠ b ∧ Relation.ReflTransGen (Calls cc) n b := by
  constructor
  · intro h
    obtain ⟨k, -, -, hw⟩ := searchFrom_sound h
    exact ⟨(searchFrom_true_iff.mp h).1, hw.reflTransGen⟩
  · intro h
    obtain ⟨hnb, hreach⟩ := h
    exact searchFrom_true_iff.mpr ⟨hnb, inTime_of_safe ord hnb (safe_of_large he hnb hreach)⟩

-- ---------------------------------------------------------------------------
-- What is printed
-- ---------------------------------------------------------------------------

/-- Some chain of calls leads from a function near the bug, neither of the pair, to the
partner. -/
def NearReach (cc : CallerCallee) (a b : String) (nearBy : Finset String) : Prop :=
  ∃ n ∈ nearBy, n ≠ a ∧ n ≠ b ∧ Relation.ReflTransGen (Calls cc) n b

theorem nearInTime_exhaustive_iff {cc : CallerCallee} {e : Int} (search : SearchOrder)
    (he : 2 * (cc.keySet.card : Int) ≤ e) {a b : String} {nearBy : Finset String} :
    NearInTime cc search e a b nearBy ↔ NearReach cc a b nearBy := by
  have hiff : ∀ n, n ≠ b → (InTime cc search e n b ↔ Relation.ReflTransGen (Calls cc) n b) := by
    intro n hnb
    have hsearch := searchFrom_exhaustive_iff (n := n) (b := b) search he
    rw [searchFrom_true_iff, and_congr_right_iff] at hsearch
    exact hsearch hnb
  constructor
  · intro h
    obtain ⟨n, hn, hna, hnb, h⟩ := h
    exact ⟨n, hn, hna, hnb, (hiff n hnb).mp h⟩
  · intro h
    obtain ⟨n, hn, hna, hnb, h⟩ := h
    exact ⟨n, hn, hna, hnb, (hiff n hnb).mpr h⟩

/--
**A large bound.** With an `expandLevel` of at least twice the number of callers, and
whatever the orders of the loops of the search and of the printing, part C prints the
violations for which no chain of calls, of whatever length, leads from one of the callees
stored for the caller to the missing partner, each of them once. Stored are the callees of
the last node with callees, and the chains are of calls that are stored.
-/
theorem run_prints_unreached (ord : PrintOrder) (search : SearchOrder) {e : Int} (bs : List Block)
    (s : Int) (t : ℚ) (he : 2 * ((stateOf bs).callerCallee.keySet.card : Int) ≤ e) :
    Prints (run ord search e bs s t) fun line =>
      ∃ a b c nearBy, (siteDatabase bs).Violation s t a b c ∧
        (stateOf bs).callerCallee.get c = some nearBy ∧
        ¬ NearReach (stateOf bs).callerCallee a b nearBy ∧
        line = bugLine (siteDatabase bs) a b c := by
  obtain ⟨out, hrun, hnd, -⟩ := run_prints ord search e bs s t
  refine ⟨out, hrun, hnd, fun line => ?_⟩
  constructor
  · intro hline
    obtain ⟨a, b, c, nearBy, hviol, hnear, rfl⟩ := exists_violation hrun hline
    rw [bugLine_mem_iff hrun hviol hnear, nearInTime_exhaustive_iff search he] at hline
    exact ⟨a, b, c, nearBy, hviol, hnear, hline, rfl⟩
  · intro hline
    obtain ⟨a, b, c, nearBy, hviol, hnear, hn, rfl⟩ := hline
    rwa [bugLine_mem_iff hrun hviol hnear, nearInTime_exhaustive_iff search he]

/-- The test program has eleven callers. -/
theorem run_prints_unreached_test2 :
    Prints (run default (presenting []) 22 test2 3 (65 / 100)) fun line =>
      ∃ a b c nearBy, (siteDatabase test2).Violation 3 (65 / 100) a b c ∧
        (stateOf test2).callerCallee.get c = some nearBy ∧
        ¬ NearReach (stateOf test2).callerCallee a b nearBy ∧
        line = bugLine (siteDatabase test2) a b c :=
  run_prints_unreached default (presenting []) test2 3 (65 / 100) (by decide +kernel)

-- ---------------------------------------------------------------------------
-- The bound is sharp
-- ---------------------------------------------------------------------------

/-- A name for every number. -/
def numbered : Nat → String
  | 0 => "f"
  | i + 1 => numbered i ++ "f"

/-- Each of `m` functions calls itself and the next one. -/
def selfCalling (m : Nat) : CallerCallee :=
  ((List.range m).map numbered).foldl (fun cc f => cc.put f {f, f ++ "f"}) HashMap.empty

/-- Every function is presented to itself first. -/
noncomputable def selfFirst : SearchOrder where
  callees f := (Iteration.arbitrary String).putOff (f ++ "f")
  toArray := Iteration.arbitrary String

theorem length_numbered (i : Nat) : (numbered i).length = i + 1 := by
  induction i with
  | zero => rfl
  | succ i ih =>
    rw [numbered, String.length_append, ih]
    rfl

theorem numbered_injective : Function.Injective numbered := by
  intro i j h
  have hlen := congrArg String.length h
  rw [length_numbered, length_numbered] at hlen
  omega

theorem numbered_succ_ne (i : Nat) : numbered i ≠ numbered (i + 1) := fun h => by
  have := numbered_injective h
  omega

theorem get_selfCalling (m : Nat) (f : String) :
    (selfCalling m).get f =
      if f ∈ (List.range m).map numbered then some {f, f ++ "f"} else none := by
  rw [selfCalling, HashMap.get_foldl_put, HashMap.get_empty]

theorem calleesInOrder_selfCalling {m i : Nat} (hi : i < m) :
    calleesInOrder (selfCalling m) selfFirst (numbered i) = [numbered i, numbered (i + 1)] := by
  have hne : numbered (i + 1) ∉ ({numbered i} : Finset String) := by
    simpa using (numbered_succ_ne i).symm
  have hmem : numbered i ∈ (List.range m).map numbered :=
    List.mem_map_of_mem (List.mem_range.mpr hi)
  rw [calleesInOrder, get_selfCalling, if_pos hmem]
  show (Iteration.putOff _ (numbered (i + 1))).list {numbered i, numbered (i + 1)} = _
  rw [Iteration.list_putOff _ (by simp), Finset.pair_comm, Finset.erase_insert hne,
    Iteration.list_singleton]
  rfl

/-- The search with one less than twice the callers comes by one function after the other,
each two levels higher, and stops before the last one. -/
theorem traversal_selfCalling {m : Nat} {trail : Trail} {waiting : List String}
    (h : Traversal (selfCalling m) selfFirst (2 * m - 1) (numbered 0) trail waiting) (hm : 0 < m) :
    waiting = [] ∨ ∃ i < m, waiting = [numbered i] ∧
      levelAfter (selfCalling m) selfFirst trail (numbered i) = 2 * i := by
  induction h with
  | start => exact Or.inr ⟨0, hm, rfl, rfl⟩
  | @visit trail p waiting _ ih =>
    obtain hnil | ⟨i, hi, hwaiting, hlevel⟩ := ih
    · cases hnil
    · obtain ⟨rfl, rfl⟩ : p = numbered i ∧ waiting = [] := by simpa using hwaiting
      have hgiven : given (selfCalling m) selfFirst (numbered i)
          (levelAfter (selfCalling m) selfFirst trail (numbered i)) (numbered (i + 1)) =
            2 * (i + 1 : Nat) := by
        rw [given, bump, calleesInOrder_selfCalling hi, hlevel,
          if_pos (by simp [numbered_succ_ne])]
        push_cast
        ring
      -- a visit sees the function itself, and the next one if that is within the bound
      have hfresh : fresh (selfCalling m) selfFirst (2 * m - 1) trail (numbered i) [] = [] ∨
          fresh (selfCalling m) selfFirst (2 * m - 1) trail (numbered i) [] = [numbered (i + 1)] ∧
            i + 1 < m := by
        rw [fresh, calleesInOrder_selfCalling hi, List.filter_cons_of_neg (by simp),
          List.filter_cons, List.filter_nil, hgiven]
        split
        · next hcond =>
          rw [decide_eq_true_eq] at hcond
          exact Or.inr ⟨rfl, by omega⟩
        · exact Or.inl rfl
      rcases hfresh with hnil | ⟨hnext, hlt⟩
      · exact Or.inl (by rw [hnil]; rfl)
      · refine Or.inr ⟨i + 1, hlt, by rw [hnext]; rfl, ?_⟩
        rw [levelAfter, if_pos (by rw [calleesInOrder_selfCalling hi]; simp), hgiven]

/--
**The bound is sharp.** For every positive number of callers there is a call graph with so
many, an order of its loops and a partner in reach that the search does not find when the
bound is one less than twice that number.
-/
theorem exhaustive_bound_tight (k : Nat) :
    ∃ (cc : CallerCallee) (search : SearchOrder) (n b : String), cc.keySet.card = k + 1 ∧
      n ≠ b ∧ Relation.ReflTransGen (Calls cc) n b ∧
      searchFrom cc search (2 * cc.keySet.card - 1) b n = .ok false := by
  have hcard : (selfCalling (k + 1)).keySet.card = k + 1 := by
    have hkeys : (selfCalling (k + 1)).keySet = ((List.range (k + 1)).map numbered).toFinset := by
      ext f
      rw [HashMap.mem_keySet, get_selfCalling, List.mem_toFinset]
      split
      · next h => simp [h]
      · next h => simp [h]
    have hnodup : ((List.range (k + 1)).map numbered).Nodup :=
      List.nodup_range.map numbered_injective
    rw [hkeys, List.toFinset_card_of_nodup hnodup, List.length_map, List.length_range]
  have hreach : ∀ i ≤ k + 1,
      Relation.ReflTransGen (Calls (selfCalling (k + 1))) (numbered 0) (numbered i) := by
    intro i
    induction i with
    | zero => exact fun _ => .refl
    | succ i ih =>
      intro hi
      have hnext : numbered (i + 1) ∈
          calleesInOrder (selfCalling (k + 1)) selfFirst (numbered i) := by
        rw [calleesInOrder_selfCalling hi]
        simp
      exact (ih (by omega)).tail (mem_calleesInOrder.mp hnext)
  have hne : numbered 0 ≠ numbered (k + 1) := fun h => by
    have := numbered_injective h
    omega
  refine ⟨selfCalling (k + 1), selfFirst, numbered 0, numbered (k + 1), hcard, hne,
    hreach _ le_rfl, ?_⟩
  rw [hcard]
  obtain ⟨v, hv⟩ := searchFrom_ok (selfCalling (k + 1)) selfFirst (2 * (k + 1 : Nat) - 1)
    (numbered (k + 1)) (numbered 0)
  cases v with
  | false => exact hv
  | true =>
    -- the only function that calls the partner gives it a level too high
    obtain ⟨-, trail, p, waiting, htrail, hmem, hle⟩ := searchFrom_true_iff.mp hv
    rcases traversal_selfCalling htrail (by omega) with hnil | ⟨i, hi, hwaiting, hlevel⟩
    · cases hnil
    · obtain ⟨rfl, rfl⟩ : p = numbered i ∧ waiting = [] := by simpa using hwaiting
      have hlast : i = k := by
        rw [calleesInOrder_selfCalling hi, List.mem_cons, List.mem_singleton] at hmem
        rcases hmem with h | h
        · have := numbered_injective h
          omega
        · have := numbered_injective h
          omega
      subst hlast
      rw [given, bump, calleesInOrder_selfCalling hi, hlevel,
        if_pos (by simp [numbered_succ_ne])] at hle
      push_cast at hle
      omega

end Pipair.PartC
