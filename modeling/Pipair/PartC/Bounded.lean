import Pipair.PartC.Search

/-!
# Part C, what the search finds is there

The invariant of the search (`SearchInv`): a stored level is always the length
of some chain of calls from the function the search started at, and every
function on the stack has one. From it:

* `iterate_expand`: the loop has its result within `searchFuel` rounds,
  also on cyclic graphs, and does not fault;
* `searchFrom_sound`: a partner found is at the end of a chain of at most
  `expandLevel` calls.

Termination weighs the functions not yet visited and those on the stack: a push
moves a function from the first to the second, a pop takes one away.
-/

namespace Pipair.PartC

/-- The invariant of the search for `b` from `n`. -/
structure SearchInv (cc : CallerCallee) (n b : String) (st : Search) : Prop where
  level_walk : ∀ x l, st.level.get x = some l → ∃ k : Nat, l = k ∧ Walk (Calls cc) k n x
  visit_level : ∀ x ∈ st.visit, ∃ l, st.level.get x = some l
  stack_visit : ∀ x ∈ st.stack, x ∈ st.visit
  start_visit : n ∈ st.visit
  target : b ≠ n → b ∉ st.visit

/-- The functions not yet visited, and those on the stack. -/
def weight (cc : CallerCallee) (n : String) (st : Search) : Nat :=
  (insert n (functions cc) \ st.visit).card + st.stack.length

section Invariant

variable {cc : CallerCallee} {ord : SearchOrder} {e : Int} {n b p x : String}
  {st st' : Search} {l : Int}

theorem searchInv_start : SearchInv cc n b (Search.start n) where
  level_walk x l h := by
    simp only [Search.start, HashMap.get_put] at h
    split at h
    · next hx =>
      subst hx
      exact ⟨0, by simpa using h.symm, .refl x⟩
    · simp at h
  visit_level x h := by
    simp only [Search.start, Finset.mem_singleton] at h
    subst h
    exact ⟨0, by simp [Search.start]⟩
  stack_visit x h := by simpa [Search.start] using h
  start_visit := Finset.mem_singleton_self n
  target h := by simpa [Search.start] using h

/-- A look along a call keeps the invariant. -/
theorem SearchInv.looked (h : SearchInv cc n b st) (hl : st.level.get p = some l)
    (hcall : Calls cc p x) (hnot : ¬(x ∉ st.visit ∧ l + 1 ≤ e ∧ x = b)) :
    SearchInv cc n b (st.looked e x (l + 1)) where
  level_walk y m hm := by
    rw [looked_level, HashMap.get_put] at hm
    split at hm
    · next hy =>
      subst hy
      -- the level written is one more than that of `p`, which calls `y`
      obtain ⟨k, rfl, hw⟩ := h.level_walk p l hl
      exact ⟨k + 1, by simpa using hm.symm, .tail hw hcall⟩
    · exact h.level_walk y m hm
  visit_level y hy := by
    rw [looked_level, HashMap.get_put]
    split
    · exact ⟨_, rfl⟩
    · next hne => exact h.visit_level y ((mem_looked_visit hy).resolve_right hne)
  stack_visit y hy := by
    rcases mem_looked_stack hy with hy | ⟨rfl, hx⟩
    · exact subset_looked_visit (h.stack_visit y hy)
    · exact hx
  start_visit := subset_looked_visit h.start_visit
  target hbn hb := by
    unfold Search.looked at hb
    split at hb
    · next hcond =>
      rcases Finset.mem_insert.mp hb with rfl | hb
      · exact hnot ⟨hcond.1, hcond.2, rfl⟩
      · exact h.target hbn hb
    · exact h.target hbn hb

/-- A look moves a function at most from the unvisited ones to the stack. -/
theorem weight_looked (hcall : Calls cc p x) :
    weight cc n (st.looked e x l) ≤ weight cc n st := by
  unfold weight Search.looked
  split
  · next hcond =>
    have hx : x ∈ insert n (functions cc) \ st.visit := by
      rw [Finset.mem_sdiff, Finset.mem_insert]
      exact ⟨Or.inr (mem_functions.mpr ⟨p, hcall⟩), hcond.1⟩
    have hcard : (insert n (functions cc) \ insert x st.visit).card + 1 =
        (insert n (functions cc) \ st.visit).card := by
      rw [Finset.sdiff_insert, Finset.card_erase_add_one hx]
    simp only [List.length_cons]
    omega
  · exact Nat.le_refl _

theorem SearchInv.pop (h : SearchInv cc n b st) {stack : List String}
    (hs : st.stack = p :: stack) :
    SearchInv cc n b { st with stack := stack } ∧
      (∃ l, st.level.get p = some l) ∧
      weight cc n { st with stack := stack } + 1 = weight cc n st := by
  have hp : p ∈ st.visit := h.stack_visit p (by simp [hs])
  have hrest : ∀ x ∈ stack, x ∈ st.visit := by
    intro x hx
    exact h.stack_visit x (hs ▸ List.mem_cons_of_mem p hx)
  refine ⟨⟨h.level_walk, h.visit_level, hrest, h.start_visit, h.target⟩, h.visit_level p hp, ?_⟩
  simp only [weight, hs, List.length_cons]
  omega

/-- **What a round does**, in a state with the invariant: it ends the search, or
goes on with less weight, or finds the partner by a call of the function on top
of the stack. -/
theorem expand_spec (ord : SearchOrder) (e : Int) (h : SearchInv cc n b st) :
    (st.stack = [] ∧ expand cc ord e b st = .inr (.ok false)) ∨
    (∃ st', expand cc ord e b st = .inl st' ∧ SearchInv cc n b st' ∧
      weight cc n st' < weight cc n st) ∨
    (expand cc ord e b st = .inr (.ok true) ∧ n ≠ b ∧ ∃ p stack, st.stack = p :: stack ∧
      Calls cc p b ∧ ∃ k : Nat, (k : Int) + 1 ≤ e ∧ Walk (Calls cc) k n p) := by
  cases hs : st.stack with
  | nil => exact Or.inl ⟨rfl, by rw [expand, hs]⟩
  | cons p stack =>
    obtain ⟨hpop, ⟨l, hl⟩, hweight⟩ := h.pop hs
    cases hset : cc.get p with
    | none => exact Or.inr (Or.inl ⟨_, by rw [expand, hs]; simp only [hset], hpop, by omega⟩)
    | some popSet =>
      have hcalls : ∀ x ∈ (ord.callees p).list popSet, Calls cc p x := fun x hx =>
        ⟨popSet, hset, (Iteration.mem_list _).mp hx⟩
      -- every look keeps the invariant and does not add weight to the popped stack
      have hspec := lookAll_spec ((ord.callees p).list popSet) (e := e) (b := b) (p := p)
        (P := fun st' => SearchInv cc n b st' ∧
          weight cc n st' ≤ weight cc n { st with stack := stack })
        (fun x hx st₁ l₁ hst₁ hl₁ hnot => ⟨hst₁.1.looked hl₁ (hcalls x hx) hnot,
          (weight_looked (hcalls x hx)).trans hst₁.2⟩)
        ⟨hpop, Nat.le_refl _⟩ hl
      rcases hspec with ⟨st', hlook, hinv, hle⟩ | ⟨hlook, hb, st', l', ⟨hinv, -⟩, hl', hnew, hle⟩
      · refine Or.inr (Or.inl ⟨st', ?_, hinv, by omega⟩)
        rw [expand, hs]
        simp only [hset, hlook]
      · obtain ⟨k, rfl, hw⟩ := hinv.level_walk p l' hl'
        have hnb : n ≠ b := fun h => hnew (h ▸ hinv.start_visit)
        refine Or.inr (Or.inr ⟨?_, hnb, p, stack, rfl, hcalls b hb, k, hle, hw⟩)
        rw [expand, hs]
        simp only [hset, hlook]

/-- **Step lemma.** A round keeps the invariant and lowers the weight. -/
theorem SearchInv.expand (h : SearchInv cc n b st) (hstep : expand cc ord e b st = .inl st') :
    SearchInv cc n b st' ∧ weight cc n st' < weight cc n st := by
  rcases expand_spec ord e h with ⟨-, hr⟩ | ⟨st'', hr, hinv, hlt⟩ | ⟨hr, -⟩
  · simp [hr] at hstep
  · rw [hr, Sum.inl.injEq] at hstep
    exact hstep ▸ ⟨hinv, hlt⟩
  · simp [hr] at hstep

/-- The invariant holds in every state of the search. -/
theorem searchInv_reaches
    (h : Loop.Reaches (PartC.expand cc ord e b) (Search.start n) st) : SearchInv cc n b st :=
  h.invariant searchInv_start fun hs hstep => (hs.expand hstep).1

/-- **The search ends**: `searchFuel` rounds have a result, and more rounds have
the same. -/
theorem iterate_expand (cc : CallerCallee) (ord : SearchOrder) (e : Int) (b n : String)
    {fuel : Nat} (hfuel : searchFuel cc ≤ fuel) :
    Loop.iterate (expand cc ord e b) fuel (Search.start n) = some (searchFrom cc ord e b n) := by
  -- at the start only the functions that are called are unvisited
  have hweight : weight cc n (Search.start n) + 1 ≤ searchFuel cc := by
    have hsub : insert n (functions cc) \ {n} ⊆ functions cc := by
      intro x hx
      simp only [Finset.mem_sdiff, Finset.mem_insert, Finset.mem_singleton] at hx
      exact hx.1.resolve_left hx.2
    have := Finset.card_le_card hsub
    simp only [weight, Search.start, searchFuel, List.length_singleton]
    omega
  obtain ⟨r, hr⟩ := Loop.iterate_of_measure (expand cc ord e b) (P := SearchInv cc n b)
    (μ := weight cc n) (fun hs hstep => hs.expand hstep) searchInv_start
  have hsearch := Loop.iterate_mono hweight hr
  rw [Loop.iterate_mono hfuel hsearch]
  simp only [searchFrom, hsearch]

/-- The result of the search is that of its last round. -/
theorem exists_last_round (cc : CallerCallee) (ord : SearchOrder) (e : Int) (b n : String) :
    ∃ st, Loop.Reaches (expand cc ord e b) (Search.start n) st ∧
      expand cc ord e b st = .inr (searchFrom cc ord e b n) :=
  Loop.exists_of_iterate (iterate_expand cc ord e b n (Nat.le_refl _))

/-- A round of the search that returns gives its result. -/
theorem searchFrom_of_last_round {r : Except Fault Bool}
    (h : Loop.Reaches (PartC.expand cc ord e b) (Search.start n) st)
    (hr : PartC.expand cc ord e b st = .inr r) : searchFrom cc ord e b n = r := by
  obtain ⟨k, hk⟩ := Loop.exists_iterate_of_reaches h hr
  exact Loop.iterate_unique (iterate_expand cc ord e b n (Nat.le_refl _)) hk

/-- The search does not fault. -/
theorem searchFrom_ok (cc : CallerCallee) (ord : SearchOrder) (e : Int) (b n : String) :
    ∃ v, searchFrom cc ord e b n = .ok v := by
  obtain ⟨st, hst, hlast⟩ := exists_last_round cc ord e b n
  rcases expand_spec ord e (searchInv_reaches hst) with
    ⟨-, hr⟩ | ⟨st', hr, -⟩ | ⟨hr, -⟩ <;> rw [hlast] at hr
  · exact ⟨false, Sum.inr.inj hr⟩
  · cases hr
  · exact ⟨true, Sum.inr.inj hr⟩

/-- **A partner found** is called from the start in at most `e` calls. -/
theorem searchFrom_sound (h : searchFrom cc ord e b n = .ok true) : Chain cc e n b := by
  obtain ⟨st, hst, hlast⟩ := exists_last_round cc ord e b n
  rcases expand_spec ord e (searchInv_reaches hst) with
    ⟨-, hr⟩ | ⟨st', hr, -⟩ | ⟨-, -, p, stack, -, hcall, k, hk, hw⟩
  · rw [hlast, h] at hr
    cases hr
  · rw [hlast] at hr
    cases hr
  · exact ⟨k + 1, by omega, by push_cast; omega, .tail hw hcall⟩

end Invariant

-- ---------------------------------------------------------------------------
-- The loop over the functions near the bug
-- ---------------------------------------------------------------------------

section NearBy

variable {cc : CallerCallee} {ord : SearchOrder} {e : Int} {a b : String}

/-- **What the loop over `nearBy` returns**: whether the search from one of the
functions, `a` left out, finds the partner. -/
theorem nearByLoop_eq (cc : CallerCallee) (ord : SearchOrder) (e : Int) (b : String)
    (singleKey : Finset String) (nearBy : List String) :
    ∃ v, nearByLoop cc ord e singleKey b nearBy = .ok v ∧
      (v = true ↔ ∃ n ∈ nearBy, n ∉ singleKey ∧ searchFrom cc ord e b n = .ok true) := by
  induction nearBy with
  | nil => exact ⟨false, rfl, by simp⟩
  | cons n nearBy ih =>
    obtain ⟨v, hv, hiff⟩ := ih
    rw [nearByLoop]
    by_cases hn : n ∈ singleKey
    · refine ⟨v, by rw [if_pos hn, hv], ?_⟩
      rw [hiff, List.exists_mem_cons_iff]
      simp [hn]
    · rw [if_neg hn]
      obtain ⟨w, hw⟩ := searchFrom_ok cc ord e b n
      cases w with
      | true => exact ⟨true, by rw [hw], by simp [hn, hw]⟩
      | false =>
        refine ⟨v, by rw [hw]; exact hv, ?_⟩
        rw [hiff, List.exists_mem_cons_iff]
        simp [hw]

/-- The partner is what is left of the pair. -/
theorem element_pair_sdiff (it : Iteration String) (hab : a ≠ b) :
    element (it.list ({a, b} \ {a})) 0 = .ok b := by
  -- exactly one name is left, so the order of `toArray` does not matter
  have hdiff : ({a, b} : Finset String) \ {a} = {b} := by
    ext x
    simp only [Finset.mem_sdiff, Finset.mem_insert, Finset.mem_singleton]
    constructor
    · exact fun h => h.1.resolve_left h.2
    · rintro rfl
      exact ⟨Or.inr rfl, Ne.symm hab⟩
  rw [hdiff, Iteration.list_singleton, element_zero]

/-- **The verdict**: `reachReducedBug` returns, and returns `true` exactly when
the search from a function near the bug finds the partner. -/
theorem reachReducedBug_eq (cc : CallerCallee) (ord : SearchOrder) (e : Int) (hab : a ≠ b)
    (nearBy : List String) :
    ∃ v, reachReducedBug cc ord e {a} {a, b} nearBy = .ok v ∧
      (v = true ↔ ∃ n ∈ nearBy, n ≠ a ∧ searchFrom cc ord e b n = .ok true) := by
  obtain ⟨v, hv, hiff⟩ := nearByLoop_eq cc ord e b {a} nearBy
  refine ⟨v, ?_, ?_⟩
  · rw [reachReducedBug, element_pair_sdiff _ hab, ok_bind, hv]
  · simpa only [Finset.mem_singleton] using hiff

theorem reachReducedBug_true_iff (hab : a ≠ b) (nearBy : List String) :
    reachReducedBug cc ord e {a} {a, b} nearBy = .ok true ↔
      ∃ n ∈ nearBy, n ≠ a ∧ searchFrom cc ord e b n = .ok true := by
  obtain ⟨v, hv, hiff⟩ := reachReducedBug_eq cc ord e hab nearBy
  rw [hv, ← hiff]
  simp

/-- A suppressed bug has a function near it, other than `a`, that calls the
partner in at most `e` calls. -/
theorem reachReducedBug_sound (hab : a ≠ b) {nearBy : List String}
    (h : reachReducedBug cc ord e {a} {a, b} nearBy = .ok true) :
    ∃ n ∈ nearBy, n ≠ a ∧ Chain cc e n b := by
  obtain ⟨n, hn, hna, hs⟩ := (reachReducedBug_true_iff hab nearBy).mp h
  exact ⟨n, hn, hna, searchFrom_sound hs⟩

/-- There is no partner when the pair is a single function. -/
theorem reachReducedBug_self (nearBy : List String) :
    reachReducedBug cc ord e {a} {a, a} nearBy = .error .indexOutOfBounds := by
  have hnil : ord.toArray.list (({a, a} : Finset String) \ {a}) = [] := by
    rw [← List.length_eq_zero_iff, Iteration.length_list]
    simp
  rw [reachReducedBug, hnil]
  rfl

end NearBy

end Pipair.PartC
