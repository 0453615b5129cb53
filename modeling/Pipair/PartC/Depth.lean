import Pipair.PartC.Expand

/-!
# Part C, how deep the expansion goes

A call of `getCalleeExtend` of `Group63/pi/partC/pipair_java2.java` comes to an end where
there are no callees, and where the level is above `expandLevel`.

* When `expandLevel` is not the largest `int`, the levels get above it before they could
  wrap around: the result is that of the recursion over levels without bounds
  (`getCalleeExtend_eq`), and there is always one.
* When it is, no level is above it. A call has a result exactly when the chains of calls
  from its function end by themselves (`exists_getCalleeExtend_iff`).

In either case `callDepth` is enough depth, if any is (`getCalleeExtend_callDepth`).
-/

namespace Pipair.PartC.Expand

section Expansion

variable (callerCallee : CallerCallee) (ord : ExpandOrder) (expandLevel : Int)

/-- What `getCalleeExtend` does, with levels that do not wrap around. -/
def expansion (result : List String) (caller : String) (levelCount : Int) : List String :=
  if levelCount > expandLevel then result
  else
    match callerCallee.get caller with
    | none => result
    | some callees =>
      if callees.Nonempty then
        ((ord.callees caller).list callees).foldl
          (fun result callee => expansion result callee (levelCount + 1))
          (result.erase caller ++ (ord.callees caller).list callees)
      else result
termination_by (expandLevel + 1 - levelCount).toNat
decreasing_by omega

/-- The set of the expanded callees of a caller. -/
def expanded (caller : String) : Finset String :=
  (expansion callerCallee ord expandLevel [] caller 0).toFinset

end Expansion

section Depth

variable {cc : CallerCallee} {ord : ExpandOrder} {e level : Int} {d d' : Nat}
  {result r r' : List String} {c f x : String}

-- ---------------------------------------------------------------------------
-- More depth
-- ---------------------------------------------------------------------------

/-- More depth does not change a result. -/
theorem getCalleeExtend_mono (hd : d ≤ d') (h : getCalleeExtend cc ord e d result f level = .ok r) :
    getCalleeExtend cc ord e d' result f level = .ok r := by
  induction d generalizing d' result f level r with
  | zero => cases h
  | succ d ih =>
    obtain ⟨k, rfl⟩ : ∃ k, d' = k + 1 := ⟨d' - 1, by omega⟩
    rw [getCalleeExtend] at h ⊢
    by_cases hlevel : level > e
    · rwa [if_pos hlevel] at h ⊢
    · rw [if_neg hlevel] at h ⊢
      cases hs : cc.get f with
      | none => rwa [hs] at h
      | some s =>
        simp only [hs] at h ⊢
        by_cases hne : s.Nonempty
        · rw [if_pos hne] at h ⊢
          exact Loop.foldlM_mono (fun _ _ _ hround => ih (by omega) hround) h
        · rwa [if_neg hne] at h ⊢

/-- A call has at most one result. -/
theorem getCalleeExtend_unique (h : getCalleeExtend cc ord e d result f level = .ok r)
    (h' : getCalleeExtend cc ord e d' result f level = .ok r') : r = r' := by
  rcases Nat.le_total d d' with hle | hle
  · exact Except.ok.inj ((getCalleeExtend_mono hle h).symm.trans h')
  · exact Except.ok.inj (h.symm.trans (getCalleeExtend_mono hle h'))

/-- Everything in the list was there before or is called. -/
theorem mem_getCalleeExtend (h : getCalleeExtend cc ord e d result f level = .ok r) (hx : x ∈ r) :
    x ∈ result ∨ ∃ g, Calls cc g x := by
  induction d generalizing result f level r with
  | zero => cases h
  | succ d ih =>
    rw [getCalleeExtend] at h
    by_cases hlevel : level > e
    · rw [if_pos hlevel] at h
      exact Or.inl (Except.ok.inj h ▸ hx)
    · rw [if_neg hlevel] at h
      cases hs : cc.get f with
      | none =>
        rw [hs] at h
        exact Or.inl (Except.ok.inj h ▸ hx)
      | some s =>
        simp only [hs] at h
        by_cases hne : s.Nonempty
        · rw [if_pos hne] at h
          refine Loop.foldlM_invariant
            (P := fun l : List String => x ∈ l → x ∈ result ∨ ∃ g, Calls cc g x) ?_ ?_ h hx
          · intro l callee _ l' hl hround hx
            exact (ih hround hx).elim hl Or.inr
          · intro hx
            rcases List.mem_append.mp hx with hx | hx
            · exact Or.inl (List.mem_of_mem_erase hx)
            · exact Or.inr ⟨f, s, hs, (Iteration.mem_list _).mp hx⟩
        · rw [if_neg hne] at h
          exact Or.inl (Except.ok.inj h ▸ hx)

theorem calls_of_mem_extend {s : Finset String} (h : extend cc ord e c = .ok s) (hx : x ∈ s) :
    ∃ g, Calls cc g x := by
  obtain ⟨list, hrun, hset⟩ := Loop.exists_of_bind_ok h
  obtain rfl := Except.ok.inj hset
  exact (mem_getCalleeExtend hrun (List.mem_toFinset.mp hx)).resolve_left List.not_mem_nil

-- ---------------------------------------------------------------------------
-- Levels that do not wrap around
-- ---------------------------------------------------------------------------

/-- **Below the largest `int`** every call has a result, that of the expansion without
bounds. -/
theorem getCalleeExtend_eq (he : e < maxInt) (hlevel : 0 ≤ level) (hpos : 0 < d)
    (hd : e + 1 < level + d) :
    getCalleeExtend cc ord e d result f level = .ok (expansion cc ord e result f level) := by
  induction d generalizing result f level with
  | zero => omega
  | succ d ih =>
    rw [getCalleeExtend, expansion]
    by_cases hgt : level > e
    · rw [if_pos hgt, if_pos hgt]
    · rw [if_neg hgt, if_neg hgt]
      cases hs : cc.get f with
      | none => rfl
      | some s =>
        dsimp only
        by_cases hne : s.Nonempty
        · rw [if_pos hne, if_pos hne, intAdd_eq (by omega) (by omega)]
          push_cast at hd
          exact Loop.foldlM_ok (fun l callee _ => ih (by omega) (by omega) (by omega)) _
        · rw [if_neg hne, if_neg hne]

theorem eq_expansion (he : e < maxInt) (hlevel : 0 ≤ level)
    (h : getCalleeExtend cc ord e d result f level = .ok r) :
    r = expansion cc ord e result f level :=
  getCalleeExtend_unique h
    (getCalleeExtend_eq he hlevel (d := e.toNat + 2) (by omega) (by push_cast; omega))

theorem getCalleeExtend_zero (he : e < maxInt) (hd : callDepth cc e ≤ d) :
    getCalleeExtend cc ord e d [] c 0 = .ok (expansion cc ord e [] c 0) := by
  rw [callDepth] at hd
  exact getCalleeExtend_eq he le_rfl (by omega) (by omega)

theorem extend_eq (he : e < maxInt) : extend cc ord e c = .ok (expanded cc ord e c) := by
  rw [extend, getCalleeExtend_zero he le_rfl]
  rfl

-- ---------------------------------------------------------------------------
-- The largest level
-- ---------------------------------------------------------------------------

/-- **With the largest `int`** a call has a result when its chains of calls end within the
depth. -/
theorem exists_getCalleeExtend_iff (he : maxInt ≤ e) (hlevel : level ≤ maxInt) :
    (∃ r, getCalleeExtend cc ord e d result f level = .ok r) ↔
      ∀ g, ¬ Walk (Calls cc) d f g := by
  induction d generalizing result f level with
  | zero =>
    constructor
    · intro h
      obtain ⟨r, hr⟩ := h
      cases hr
    · intro h
      exact absurd (.refl f) (h f)
  | succ d ih =>
    rw [getCalleeExtend, if_neg (by omega)]
    simp only [Walk.succ_iff_head]
    cases hs : cc.get f with
    | none =>
      refine ⟨fun _ g => ?_, fun _ => ⟨result, rfl⟩⟩
      intro h
      obtain ⟨x, ⟨s, hs', -⟩, -⟩ := h
      rw [hs] at hs'
      cases hs'
    | some s =>
      have hcall : ∀ x, Calls cc f x ↔ x ∈ s := fun x => by simp [Calls, hs]
      simp only [hcall]
      by_cases hne : s.Nonempty
      · have hround : ∀ result callee, (∃ r, getCalleeExtend cc ord e d result callee
            (intAdd level 1) = .ok r) ↔ ∀ g, ¬ Walk (Calls cc) d callee g :=
          fun result callee => ih (intAdd_le_maxInt level 1)
        rw [if_pos hne, Loop.exists_foldlM_iff hround]
        simp only [Iteration.mem_list]
        constructor
        · rintro h g ⟨x, hx, hw⟩
          exact h x hx g hw
        · exact fun h x hx g hw => h g ⟨x, hx, hw⟩
      · rw [if_neg hne]
        refine ⟨fun _ g => ?_, fun _ => ⟨result, rfl⟩⟩
        intro h
        obtain ⟨x, hx, -⟩ := h
        exact hne ⟨x, hx⟩

/-- **The depth is enough** for every call that has a result at all. -/
theorem getCalleeExtend_callDepth (hlow : 0 ≤ level) (hhigh : level ≤ maxInt)
    (h : getCalleeExtend cc ord e d result f level = .ok r) :
    getCalleeExtend cc ord e (callDepth cc e) result f level = .ok r := by
  have hres : ∃ r', getCalleeExtend cc ord e (callDepth cc e) result f level = .ok r' := by
    rcases lt_or_ge e maxInt with he | he
    · exact ⟨_, getCalleeExtend_eq he hlow (by simp [callDepth]) (by rw [callDepth]; omega)⟩
    · rw [exists_getCalleeExtend_iff he hhigh]
      intro g hw
      -- a chain longer than the number of callers goes round a cycle
      have hcaller : ∀ x y, Calls cc x y → x ∈ cc.keySet := by
        rintro x y ⟨s, hs, -⟩
        exact HashMap.mem_keySet_of_get hs
      obtain ⟨g', hw'⟩ := hw.exists_of_card_lt hcaller (by rw [callDepth]; omega) d
      exact (exists_getCalleeExtend_iff he hhigh).mp ⟨r, h⟩ g' hw'
  obtain ⟨r', hr'⟩ := hres
  rw [hr', getCalleeExtend_unique h hr']

end Depth

end Pipair.PartC.Expand
