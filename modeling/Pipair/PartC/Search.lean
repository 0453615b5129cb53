import Pipair.Java
import Pipair.Library.HashMap
import Pipair.Library.Iteration
import Pipair.Library.Loop
import Pipair.Library.Walk
import Mathlib.Data.Finset.Union

/-!
# Part C, the search for a missing partner

`Group63/pi/partC/pipair_java.java`, `reachReducedBug`. Before a bug is printed,
the functions the caller calls besides `a` are searched, depth first and at most
`expandLevel` calls deep, for a call to the missing partner `b`.

The search keeps a stack, the functions put on it so far, and a level for every
function it has looked at. The level is written at *every* look, also for
functions that wait on the stack or are being expanded: it is the length of the
chain by which the function was looked at last, not of a shortest one.

`expand` is one round of the `while` loop; `searchFuel` bounds the rounds
(`iterate_expand`), so the loop has its result within it.
-/

namespace Pipair.PartC

/-- The callees of each caller. -/
abbrev CallerCallee := HashMap String (Finset String)

/-- The orders of the loops: over `callerCallee.get(f)`, for each `f`, and of
`toArray`. -/
structure SearchOrder where
  callees : String → Iteration String
  toArray : Iteration String

/-- The variables of the search. The top of the stack is the head of the list. -/
structure Search where
  stack : List String
  visit : Finset String
  level : HashMap String Int

def Search.start (nearElem : String) : Search where
  stack := [nearElem]
  visit := {nearElem}
  level := HashMap.empty.put nearElem 0

/-- The body of the loop over `popSet`; `none` is the `return true` in it. -/
def look (expandLevel : Int) (findPair pop popElem : String) (st : Search) :
    Except Fault (Option Search) := do
  let level := st.level.put popElem ((← deref (st.level.get pop)) + 1)
  -- expandLevel is expand level, default=1
  if popElem ∉ st.visit ∧ (← deref (level.get popElem)) ≤ expandLevel then
    if popElem = findPair then pure none
    else
      pure (some
        { stack := popElem :: st.stack, visit := insert popElem st.visit, level := level })
  else pure (some { st with level := level })

/-- The loop over `popSet`. -/
def lookAll (expandLevel : Int) (findPair pop : String) :
    List String → Search → Except Fault (Option Search)
  | [], st => .ok (some st)
  | popElem :: popSet, st =>
    match look expandLevel findPair pop popElem st with
    | .error f => .error f
    | .ok none => .ok none
    | .ok (some st) => lookAll expandLevel findPair pop popSet st

/-- One round of `while(!stack.isEmpty())`. -/
def expand (callerCallee : CallerCallee) (ord : SearchOrder) (expandLevel : Int)
    (findPair : String) (st : Search) : Search ⊕ Except Fault Bool :=
  match st.stack with
  | [] => .inr (.ok false)
  | pop :: stack =>
    let st := { st with stack := stack }
    match callerCallee.get pop with
    -- a function without callees is taken off and nothing else
    | none => .inl st
    | some popSet =>
      match lookAll expandLevel findPair pop ((ord.callees pop).list popSet) st with
      | .error f => .inr (.error f)
      | .ok none => .inr (.ok true)
      | .ok (some st) => .inl st

/-- The functions that are called. -/
def functions (callerCallee : CallerCallee) : Finset String :=
  callerCallee.keySet.biUnion fun f => (callerCallee.get f).getD ∅

/-- Enough rounds for any search: every round takes a function off the stack,
and no function is put on it twice. -/
def searchFuel (callerCallee : CallerCallee) : Nat := (functions callerCallee).card + 2

/-- The `while` loop from one function near the bug. -/
def searchFrom (callerCallee : CallerCallee) (ord : SearchOrder) (expandLevel : Int)
    (findPair nearElem : String) : Except Fault Bool :=
  match Loop.iterate (expand callerCallee ord expandLevel findPair) (searchFuel callerCallee)
      (Search.start nearElem) with
  | some r => r
  | none => .error .diverged

/-- The loop over `nearBy`. -/
def nearByLoop (callerCallee : CallerCallee) (ord : SearchOrder) (expandLevel : Int)
    (singleKey : Finset String) (findPair : String) : List String → Except Fault Bool
  | [] => .ok false
  | nearElem :: nearBy =>
    -- `continue` at the function of the bug
    if nearElem ∈ singleKey then
      nearByLoop callerCallee ord expandLevel singleKey findPair nearBy
    else
      match searchFrom callerCallee ord expandLevel findPair nearElem with
      | .error f => .error f
      | .ok true => .ok true
      | .ok false => nearByLoop callerCallee ord expandLevel singleKey findPair nearBy

/-- `nearBy` is the callee set of the caller, as the loop over it presents it. -/
def reachReducedBug (callerCallee : CallerCallee) (ord : SearchOrder) (expandLevel : Int)
    (singleKey pipairKey : Finset String) (nearBy : List String) : Except Fault Bool := do
  let pipair := pipairKey \ singleKey
  let findPair ← element (ord.toArray.list pipair) 0
  nearByLoop callerCallee ord expandLevel singleKey findPair nearBy

-- ---------------------------------------------------------------------------
-- Calls
-- ---------------------------------------------------------------------------

/-- `f` calls `g`. -/
def Calls (callerCallee : CallerCallee) (f g : String) : Prop :=
  ∃ s, callerCallee.get f = some s ∧ g ∈ s

/-- A chain of at least one and at most `e` calls. -/
def Chain (callerCallee : CallerCallee) (e : Int) (f g : String) : Prop :=
  ∃ k : Nat, 1 ≤ k ∧ (k : Int) ≤ e ∧ Walk (Calls callerCallee) k f g

theorem Chain.mono {cc : CallerCallee} {e e' : Int} {f g : String} (h : Chain cc e f g)
    (hle : e ≤ e') : Chain cc e' f g := by
  obtain ⟨k, hpos, hk, hw⟩ := h
  exact ⟨k, hpos, hk.trans hle, hw⟩

theorem mem_functions {cc : CallerCallee} {g : String} :
    g ∈ functions cc ↔ ∃ f, Calls cc f g := by
  simp only [functions, Finset.mem_biUnion, Calls]
  constructor
  · intro h
    obtain ⟨f, hf, hg⟩ := h
    obtain ⟨s, hs⟩ := HashMap.exists_get_of_mem hf
    exact ⟨f, s, hs, by simpa [hs] using hg⟩
  · intro h
    obtain ⟨f, s, hs, hg⟩ := h
    exact ⟨f, HashMap.mem_keySet_of_get hs, by simpa [hs] using hg⟩

-- ---------------------------------------------------------------------------
-- One look
-- ---------------------------------------------------------------------------

section Look

variable {e : Int} {b p x : String} {st st' : Search} {l : Int}

/-- The state after a look at `x` at level `l`, when the search goes on. -/
def Search.looked (st : Search) (e : Int) (x : String) (l : Int) : Search :=
  if x ∉ st.visit ∧ l ≤ e then
    { stack := x :: st.stack, visit := insert x st.visit, level := st.level.put x l }
  else { st with level := st.level.put x l }

/-- **What a look does**: it finds the partner, or it goes on. -/
theorem look_eq (hl : st.level.get p = some l) :
    look e b p x st =
      .ok (if x ∉ st.visit ∧ l + 1 ≤ e ∧ x = b then none else some (st.looked e x (l + 1))) := by
  simp only [look, hl, deref_some, ok_bind, HashMap.get_put_self, Search.looked]
  by_cases hcond : x ∉ st.visit ∧ l + 1 ≤ e
  · rw [if_pos hcond, if_pos hcond]
    by_cases hx : x = b
    · rw [if_pos hx, if_pos ⟨hcond.1, hcond.2, hx⟩]
      rfl
    · rw [if_neg hx, if_neg fun h => hx h.2.2]
      rfl
  · rw [if_neg hcond, if_neg hcond, if_neg fun h => hcond ⟨h.1, h.2.1⟩]
    rfl

@[simp] theorem looked_level : (st.looked e x l).level = st.level.put x l := by
  unfold Search.looked
  split <;> rfl

theorem subset_looked_visit : st.visit ⊆ (st.looked e x l).visit := by
  unfold Search.looked
  split
  · exact Finset.subset_insert x st.visit
  · exact Finset.Subset.refl st.visit

theorem mem_looked_visit {y : String} (h : y ∈ (st.looked e x l).visit) :
    y ∈ st.visit ∨ y = x := by
  unfold Search.looked at h
  split at h
  · exact (Finset.mem_insert.mp h).symm
  · exact Or.inl h

theorem mem_looked_stack {y : String} (h : y ∈ (st.looked e x l).stack) :
    y ∈ st.stack ∨ (y = x ∧ x ∈ (st.looked e x l).visit) := by
  unfold Search.looked at h ⊢
  split at h
  · next hcond =>
    rw [if_pos hcond]
    rcases List.mem_cons.mp h with rfl | h
    · exact Or.inr ⟨rfl, Finset.mem_insert_self ..⟩
    · exact Or.inl h
  · exact Or.inl h

/-- The level of the function being expanded goes up by one when it looks at
itself. -/
theorem looked_level_pop (hl : st.level.get p = some l) :
    (st.looked e x (l + 1)).level.get p = some (if p = x then l + 1 else l) := by
  rw [looked_level, HashMap.get_put]
  split
  · rfl
  · exact hl

end Look

-- ---------------------------------------------------------------------------
-- All looks of one round
-- ---------------------------------------------------------------------------

/-- **Rule for the loop over `popSet`.** A property of the state that every look
keeps is kept by the loop, which does not fault; when the loop returns, one of
the functions was the partner, not seen before and within the level. -/
theorem lookAll_spec {e : Int} {b p : String} {P : Search → Prop} (popSet : List String)
    (hP : ∀ x ∈ popSet, ∀ (st : Search) (l : Int), P st → st.level.get p = some l →
      ¬(x ∉ st.visit ∧ l + 1 ≤ e ∧ x = b) → P (st.looked e x (l + 1)))
    {st : Search} {l : Int} (hst : P st) (hl : st.level.get p = some l) :
    (∃ st', lookAll e b p popSet st = .ok (some st') ∧ P st') ∨
      (lookAll e b p popSet st = .ok none ∧ b ∈ popSet ∧
        ∃ st' l', P st' ∧ st'.level.get p = some l' ∧ b ∉ st'.visit ∧ l' + 1 ≤ e) := by
  induction popSet generalizing st l with
  | nil => exact Or.inl ⟨st, rfl, hst⟩
  | cons x popSet ih =>
    rw [lookAll, look_eq hl]
    -- the loop returns at the first look that finds the partner
    by_cases hfound : x ∉ st.visit ∧ l + 1 ≤ e ∧ x = b
    · obtain ⟨hx, hle, rfl⟩ := hfound
      rw [if_pos ⟨hx, hle, rfl⟩]
      exact Or.inr ⟨rfl, List.mem_cons_self .., st, l, hst, hl, hx, hle⟩
    · rw [if_neg hfound]
      rcases ih (fun y hy => hP y (List.mem_cons_of_mem _ hy))
        (hP x (List.mem_cons_self ..) st l hst hl hfound) (looked_level_pop hl) with h | ⟨h, hb, h'⟩
      · exact Or.inl h
      · exact Or.inr ⟨h, List.mem_cons_of_mem _ hb, h'⟩

end Pipair.PartC
