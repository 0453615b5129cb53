import Pipair.PartC.Traversal

/-!
# Part C, the ways a search may take

At which levels functions are visited depends on the orders of the callees. What the
levels can be depends on the call graph alone: a function is visited at the length of a
way to it that comes by no function twice, where a function that calls itself may count
for two calls (`Route`).

So a function to which every such way is short enough is visited in time under every
order (`Early`), and a partner to which a chain of such functions leads is found under
every order (`inTime_of_safe`).
-/

namespace Pipair.PartC

-- ---------------------------------------------------------------------------
-- Ways through the call graph
-- ---------------------------------------------------------------------------

section Route

variable (cc : CallerCallee) (e : Int) (n b : String)

/-- The levels that a visit of `p` at level `l` may give to a callee. -/
def Gives (p : String) (l l' : Int) : Prop := l' = l + 1 ∨ (Calls cc p p ∧ l' = l + 2)

/-- At most `e` calls lead from `n` to `x`. -/
def Within (x : String) : Prop := ∃ k : Nat, (k : Int) ≤ e ∧ Walk (Calls cc) k n x

/-- A way from `n` by the functions `passed`, and the level at which it arrives. It comes
by no function twice and not by `b`, leaves only functions within `e` calls of `n`, and
does not leave a function that calls `b` and gives it a level within the bound: there the
search for `b` ends. -/
inductive Route : List String → Int → String → Prop
  | start : Route [] 0 n
  | call {passed : List String} {l l' : Int} {p x : String} :
      Route passed l p → Within cc e n p → (Calls cc p b → ∃ m, Gives cc p l m ∧ e < m) →
      Calls cc p x → Gives cc p l l' → x ≠ b → x ∉ p :: passed → Route (p :: passed) l' x

/-- By whatever way the search comes to `p`, it gives the callees a level within the
bound. -/
def Early (p : String) : Prop :=
  ∀ passed l l', Route cc e n b passed l p → Gives cc p l l' → l' ≤ e

/-- A chain of early functions leads from `n` to `b`. -/
def Safe : Prop := Relation.TransGen (fun p x => Early cc e n b p ∧ Calls cc p x) n b

end Route

section Route

variable {cc : CallerCallee} {e l l' : Int} {b n p x : String} {passed : List String}

theorem Gives.le (h : Gives cc p l l') : l' ≤ l + 2 := by
  rcases h with rfl | ⟨-, rfl⟩ <;> omega

theorem Route.ne (h : Route cc e n b passed l x) (hnb : n ≠ b) : x ≠ b := by
  cases h with
  | start => exact hnb
  | call _ _ _ _ _ hxb _ => exact hxb

/-- The level of a way is the length of a chain: a function that counts for two calls
itself first. -/
theorem Route.walk (h : Route cc e n b passed l x) :
    ∃ k : Nat, l = k ∧ Walk (Calls cc) k n x := by
  induction h with
  | start => exact ⟨0, rfl, .refl n⟩
  | call _ _ _ hcall hgives _ _ ih =>
    obtain ⟨k, rfl, hw⟩ := ih
    rcases hgives with rfl | ⟨hself, rfl⟩
    · exact ⟨k + 1, by push_cast; rfl, hw.tail hcall⟩
    · exact ⟨k + 2, by push_cast; rfl, (hw.tail hself).tail hcall⟩

/-- No way comes back to the start. -/
theorem Route.eq_zero (h : Route cc e n b passed l n) : l = 0 := by
  have hcases : ∀ {passed l x}, Route cc e n b passed l x →
      (passed = [] ∧ l = 0) ∨ n ∈ passed := by
    intro passed l x h
    induction h with
    | start => exact Or.inl ⟨rfl, rfl⟩
    | call hroute _ _ _ _ _ _ ih =>
      refine Or.inr ?_
      rcases ih with ⟨rfl, -⟩ | hmem
      · cases hroute
        exact List.mem_cons_self ..
      · exact List.mem_cons_of_mem _ hmem
  cases h with
  | start => rfl
  | call hroute _ _ _ _ _ hnot =>
    exfalso
    rcases hcases hroute with ⟨rfl, -⟩ | hmem
    · cases hroute
      exact hnot (List.mem_cons_self ..)
    · exact hnot (List.mem_cons_of_mem _ hmem)

/-- The start is visited at level zero. -/
theorem early_start (hone : 1 ≤ e) (hself : Calls cc n n → 2 ≤ e) : Early cc e n b n := by
  intro passed l l' hroute hgives
  obtain rfl := hroute.eq_zero
  rcases hgives with rfl | ⟨hcall, rfl⟩
  · omega
  · exact hself hcall

theorem Early.le_of_start (h : Early cc e n b n) : 1 ≤ e ∧ (Calls cc n n → 2 ≤ e) :=
  ⟨h [] 0 1 .start (Or.inl rfl), fun hself => h [] 0 2 .start (Or.inr ⟨hself, rfl⟩)⟩

theorem Safe.early_start (h : Safe cc e n b) : Early cc e n b n := by
  obtain ⟨x, hstep, -⟩ := Relation.TransGen.head'_iff.mp h
  exact hstep.1

end Route

-- ---------------------------------------------------------------------------
-- A search goes along ways
-- ---------------------------------------------------------------------------

/-- The invariant of a search that does not come by `b` in time: the functions that wait
are visited at the level of a way by functions visited before, and the callees of an early
function visited have been seen. -/
structure Routed (cc : CallerCallee) (ord : SearchOrder) (e : Int) (n b : String) (trail : Trail)
    (waiting : List String) : Prop where
  start : n ∈ waiting ∨ n ∈ trail.map Prod.fst
  route : ∀ x ∈ waiting, Within cc e n x ∧ ∃ passed ⊆ trail.map Prod.fst,
    Route cc e n b passed (levelAfter cc ord trail x) x
  closed : ∀ p ∈ trail.map Prod.fst, Early cc e n b p → ∀ x, Calls cc p x →
    x ∈ waiting ∨ x ∈ trail.map Prod.fst

section Routed

variable {cc : CallerCallee} {ord : SearchOrder} {e l : Int} {b n p x : String} {trail : Trail}
  {waiting : List String}

theorem gives_given : Gives cc p l (given cc ord p l x) := by
  unfold given bump
  split
  · next hmem =>
    have hself : Calls cc p p :=
      mem_calleesInOrder.mp ((List.takeWhile_prefix _).subset hmem)
    exact Or.inr ⟨hself, by omega⟩
  · exact Or.inl (Int.add_zero _)

theorem routed_start (he : 0 ≤ e) : Routed cc ord e n b [] [n] where
  start := Or.inl (List.mem_singleton_self n)
  route x hx := by
    obtain rfl := List.mem_singleton.mp hx
    exact ⟨⟨0, he, .refl x⟩, [], List.Subset.refl _, .start⟩
  closed p hp := absurd hp (by simp)

/-- **Step lemma.** A visit keeps the invariant. -/
theorem Routed.visit (hnb : n ≠ b) (hlate : ¬ InTime cc ord e n b)
    (htrail : Traversal cc ord e n trail (p :: waiting))
    (h : Routed cc ord e n b trail (p :: waiting)) :
    Routed cc ord e n b ((p, levelAfter cc ord trail p) :: trail)
      ((fresh cc ord e trail p waiting).reverse ++ waiting) := by
  obtain ⟨hwithin, passed, hpassed, hroute⟩ := h.route p (List.mem_cons_self ..)
  -- the search has not ended at `p`
  have hgoes : Calls cc p b → ∃ m, Gives cc p (levelAfter cc ord trail p) m ∧ e < m := by
    intro hcall
    refine ⟨given cc ord p (levelAfter cc ord trail p) b, gives_given, ?_⟩
    by_contra hle
    exact hlate ⟨trail, p, waiting, htrail, mem_calleesInOrder.mpr hcall, not_lt.mp hle⟩
  -- what was seen stays seen
  have hseen : ∀ x, x ∈ p :: waiting ∨ x ∈ trail.map Prod.fst →
      x ∈ (fresh cc ord e trail p waiting).reverse ++ waiting ∨
        x ∈ ((p, levelAfter cc ord trail p) :: trail).map Prod.fst := by
    intro x hx
    simp only [List.mem_cons, List.mem_append, List.map_cons] at hx ⊢
    tauto
  refine ⟨hseen n h.start, ?route, ?closed⟩
  case route =>
    intro x hx
    have hold : x ∉ fresh cc ord e trail p waiting → x ∈ p :: waiting := by
      intro hnot
      have hx := (List.mem_append.mp hx).resolve_left fun hmem => hnot (List.mem_reverse.mp hmem)
      exact List.mem_cons_of_mem p hx
    have hfresh : x ∈ fresh cc ord e trail p waiting → x ∈ calleesInOrder cc ord p ∧
        given cc ord p (levelAfter cc ord trail p) x ≤ e := by
      intro hmem
      obtain ⟨hcall, hnew⟩ := List.mem_filter.mp hmem
      exact ⟨hcall, (of_decide_eq_true hnew).2.2⟩
    rw [levelAfter, List.map_cons]
    by_cases hcall : x ∈ calleesInOrder cc ord p
    · rw [if_pos hcall]
      have hxb : x ≠ b := by
        by_cases hmem : x ∈ fresh cc ord e trail p waiting
        · rintro rfl
          exact hlate ⟨trail, p, waiting, htrail, hfresh hmem⟩
        · obtain ⟨-, _, -, hr⟩ := h.route x (hold hmem)
          exact hr.ne hnb
      -- a function that waits has not been passed
      have hnew : x ∉ p :: passed := by
        have hnd := (List.nodup_append.mp htrail.visit.nodup).2.2 x hx
        intro hmem
        refine hnd x ?_ rfl
        rw [List.map_cons, List.mem_cons]
        exact (List.mem_cons.mp hmem).imp_right fun hmem => hpassed hmem
      have hr := Route.call hroute hwithin hgoes (mem_calleesInOrder.mp hcall)
        (gives_given : Gives cc p _ (given cc ord p _ x)) hxb hnew
      refine ⟨?_, p :: passed, List.cons_subset_cons p hpassed, hr⟩
      by_cases hmem : x ∈ fresh cc ord e trail p waiting
      · obtain ⟨k, hk, hw⟩ := hr.walk
        exact ⟨k, hk ▸ (hfresh hmem).2, hw⟩
      · exact (h.route x (hold hmem)).1
    · rw [if_neg hcall]
      obtain ⟨hwithin, passed, hpassed, hr⟩ := h.route x (hold fun hmem => hcall (hfresh hmem).1)
      exact ⟨hwithin, passed, fun y hy => List.mem_cons_of_mem p (hpassed hy), hr⟩
  case closed =>
    intro q hq hearly x hcall
    rcases List.mem_cons.mp hq with rfl | hq
    · by_cases hold : x ∈ q :: waiting ∨ x ∈ trail.map Prod.fst
      · exact hseen x hold
      · have hfresh : x ∈ fresh cc ord e trail q waiting := by
          rw [fresh, List.mem_filter, decide_eq_true_eq]
          exact ⟨mem_calleesInOrder.mpr hcall, fun hmem => hold (Or.inl hmem),
            fun hmem => hold (Or.inr hmem), hearly passed _ _ hroute gives_given⟩
        exact Or.inl (List.mem_append_left _ (List.mem_reverse.mpr hfresh))
    · exact hseen x (h.closed q hq hearly x hcall)

/-- The invariant holds after every visit. -/
theorem routed_of_traversal (hnb : n ≠ b) (he : 0 ≤ e) (hlate : ¬ InTime cc ord e n b)
    (h : Traversal cc ord e n trail waiting) : Routed cc ord e n b trail waiting := by
  induction h with
  | start => exact routed_start he
  | visit htrail ih => exact ih.visit hnb hlate htrail

/-- **Whatever the order**, a partner to which a chain of early functions leads is found. -/
theorem inTime_of_safe (ord : SearchOrder) (hnb : n ≠ b) (h : Safe cc e n b) :
    InTime cc ord e n b := by
  by_contra hlate
  have hfalse : searchFrom cc ord e b n = .ok false := by
    obtain ⟨v, hv⟩ := searchFrom_ok cc ord e b n
    cases v with
    | false => exact hv
    | true => exact absurd (searchFrom_true_iff.mp hv).2 hlate
  obtain ⟨trail, htrail, hb⟩ := exists_exhausted hnb hfalse
  have hone : 1 ≤ e := h.early_start.le_of_start.1
  have hrouted := routed_of_traversal hnb (by omega) hlate htrail
  have hstart := hrouted.start.resolve_left List.not_mem_nil
  -- nothing waits any more, so each early function has handed the search on
  have hvisited : ∀ p x, p ∈ trail.map Prod.fst → Early cc e n b p ∧ Calls cc p x →
      x ∈ trail.map Prod.fst := fun p x hp hstep =>
    (hrouted.closed p hp hstep.1 x hstep.2).resolve_left List.not_mem_nil
  have hall : ∀ x, Relation.TransGen (fun p x => Early cc e n b p ∧ Calls cc p x) n x →
      x ∈ trail.map Prod.fst := by
    intro x hx
    induction hx with
    | single hstep => exact hvisited _ _ hstart hstep
    | tail _ hstep ih => exact hvisited _ _ ih hstep
  exact hb (hall b h)

end Routed

end Pipair.PartC
