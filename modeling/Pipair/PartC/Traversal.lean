import Pipair.PartC.Bounded

/-!
# Part C, the functions a search visits

The search writes the level of a function whenever it looks at it. So the level
at which a function is visited is not the length of a shortest chain to it: it
is one more than the level of the function *last visited* among those that call
it, and two more when that one was presented to itself before.

`Traversal` is the run of a search as a relation: the visits so far, each with its
level, and the functions that wait. It stands for the stack, the visited set and the
level map of the code (`Follows`), and invariants are easier to state for it. `InTime`
says that the visits come by the partner at a level within the bound. The main result,
`searchFrom_true_iff`: the search finds the partner exactly then.
-/

namespace Pipair.PartC

-- ---------------------------------------------------------------------------
-- The traversal
-- ---------------------------------------------------------------------------

/-- The callees of `f`, in the order in which the loop over them has them. -/
def calleesInOrder (cc : CallerCallee) (ord : SearchOrder) (f : String) : List String :=
  match cc.get f with
  | none => []
  | some s => (ord.callees f).list s

/-- One when `p` comes before `x` in the list. -/
def bump (p : String) (l : List String) (x : String) : Int :=
  if p ∈ l.takeWhile (· ≠ x) then 1 else 0

/-- The functions visited, each with the level of its visit; the last one first. -/
abbrev Trail := List (String × Int)

section Traversal

variable (cc : CallerCallee) (ord : SearchOrder) (e : Int)

/-- The level that a visit of `p` at level `l` gives to its callee `x`. -/
def given (p : String) (l : Int) (x : String) : Int := l + 1 + bump p (calleesInOrder cc ord p) x

/-- The level of `x` after a trail, as given by the last function that calls it. -/
def levelAfter : Trail → String → Int
  | [], _ => 0
  | (p, l) :: trail, x =>
    if x ∈ calleesInOrder cc ord p then given cc ord p l x else levelAfter trail x

/-- The callees of `p` that are neither visited nor waiting, and get a level
within the bound. -/
def fresh (trail : Trail) (p : String) (waiting : List String) : List String :=
  (calleesInOrder cc ord p).filter fun x =>
    x ∉ p :: waiting ∧ x ∉ trail.map Prod.fst ∧ given cc ord p (levelAfter cc ord trail p) x ≤ e

/-- A trail of visits from `n` and the functions that wait to be visited after
it. The function seen last is visited next. -/
inductive Traversal (n : String) : Trail → List String → Prop
  | start : Traversal n [] [n]
  | visit {trail : Trail} {p : String} {waiting : List String} :
      Traversal n trail (p :: waiting) →
      Traversal n ((p, levelAfter cc ord trail p) :: trail)
        ((fresh cc ord e trail p waiting).reverse ++ waiting)

/-- The traversal from `n` comes to visit a function that calls `b` and gives it
a level within the bound. -/
def InTime (n b : String) : Prop :=
  ∃ trail p waiting, Traversal cc ord e n trail (p :: waiting) ∧ b ∈ calleesInOrder cc ord p ∧
    given cc ord p (levelAfter cc ord trail p) b ≤ e

end Traversal

theorem mem_calleesInOrder {cc : CallerCallee} {ord : SearchOrder} {f g : String} :
    g ∈ calleesInOrder cc ord f ↔ Calls cc f g := by
  unfold calleesInOrder Calls
  cases h : cc.get f with
  | none => simp
  | some s => simp

theorem nodup_calleesInOrder (cc : CallerCallee) (ord : SearchOrder) (f : String) :
    (calleesInOrder cc ord f).Nodup := by
  unfold calleesInOrder
  split
  · exact List.nodup_nil
  · exact Iteration.nodup_list ..

section Visits

variable {cc : CallerCallee} {ord : SearchOrder} {e : Int} {n : String} {trail : Trail}
  {waiting : List String}

/-- No function is visited twice, or while it waits. -/
theorem Traversal.nodup (h : Traversal cc ord e n trail waiting) :
    (waiting ++ trail.map Prod.fst).Nodup := by
  induction h with
  | start => simp
  | @visit trail p waiting _ ih =>
    rw [List.map_cons, List.append_assoc, List.nodup_append]
    have hmiddle : (waiting ++ p :: trail.map Prod.fst).Nodup :=
      List.perm_middle.nodup_iff.mpr ih
    refine ⟨List.nodup_reverse.mpr ((nodup_calleesInOrder cc ord p).filter _), hmiddle, ?_⟩
    rintro y hy z hz rfl
    obtain ⟨-, hnew⟩ := List.mem_filter.mp (List.mem_reverse.mp hy)
    simp only [List.mem_cons, not_or, decide_eq_true_eq] at hnew
    rw [List.mem_append, List.mem_cons] at hz
    rcases hz with hz | rfl | hz
    · exact hnew.1.2 hz
    · exact hnew.1.1 rfl
    · exact hnew.2.1 hz

end Visits

-- ---------------------------------------------------------------------------
-- The looks of one round
-- ---------------------------------------------------------------------------

@[simp] theorem bump_self (p x : String) (l : List String) : bump p (x :: l) x = 0 := by
  simp [bump]

/-- A look at `x` is behind the looks that follow. -/
theorem bump_cons {p x y : String} {l : List String} (hnd : (x :: l).Nodup) (hy : y ≠ x) (m : Int) :
    (if p = x then m + 1 else m) + 1 + bump p l y = m + 1 + bump p (x :: l) y := by
  unfold bump
  rw [List.takeWhile_cons_of_pos (by simpa using Ne.symm hy)]
  -- after its own turn `p` does not come again
  by_cases hp : p = x
  · subst hp
    have htail : p ∉ l.takeWhile (· ≠ y) := fun h =>
      (List.nodup_cons.mp hnd).1 ((List.takeWhile_prefix _).subset h)
    rw [if_pos rfl, if_neg htail, if_pos (List.mem_cons_self ..), Int.add_zero]
  · rw [if_neg hp]
    simp only [List.mem_cons, hp, false_or]

/-- What the loop over `popSet` leaves behind when it does not return. -/
structure Looked (e : Int) (p : String) (l : Int) (popSet : List String) (st st' : Search) :
    Prop where
  stack : st'.stack =
    (popSet.filter fun x => x ∉ st.visit ∧ l + 1 + bump p popSet x ≤ e).reverse ++ st.stack
  visit : ∀ x, x ∈ st'.visit ↔ x ∈ st.visit ∨ (x ∈ popSet ∧ l + 1 + bump p popSet x ≤ e)
  level : ∀ x, st'.level.get x =
    if x ∈ popSet then some (l + 1 + bump p popSet x) else st.level.get x

section Look

variable {e : Int} {b p x : String} {st st' : Search} {l : Int} {popSet : List String}

theorem mem_looked_visit_iff {y : String} :
    y ∈ (st.looked e x l).visit ↔ y ∈ st.visit ∨ (y = x ∧ l ≤ e) := by
  unfold Search.looked
  split
  · next h => simp [Finset.mem_insert, h.2, or_comm]
  · next h =>
    refine ⟨Or.inl, fun hy => hy.elim id ?_⟩
    rintro ⟨rfl, hle⟩
    by_contra hy
    exact h ⟨hy, hle⟩

theorem looked_stack :
    (st.looked e x l).stack = if x ∉ st.visit ∧ l ≤ e then x :: st.stack else st.stack := by
  unfold Search.looked
  split <;> rfl

/-- A look, and the looks after it. -/
theorem Looked.cons (hnd : (x :: popSet).Nodup)
    (h : Looked e p (if p = x then l + 1 else l) popSet (st.looked e x (l + 1)) st') :
    Looked e p l (x :: popSet) st st' where
  stack := by
    -- the other callees are looked at as if `x` had not been there
    have hfilter : popSet.filter (fun y => y ∉ (st.looked e x (l + 1)).visit ∧
          (if p = x then l + 1 else l) + 1 + bump p popSet y ≤ e) =
        popSet.filter fun y => y ∉ st.visit ∧ l + 1 + bump p (x :: popSet) y ≤ e := by
      refine List.filter_congr fun y hy => ?_
      have hne : y ≠ x := fun heq => (List.nodup_cons.mp hnd).1 (heq ▸ hy)
      rw [decide_eq_decide, mem_looked_visit_iff, bump_cons hnd hne]
      simp [hne]
    rw [h.stack, hfilter, looked_stack, List.filter_cons]
    by_cases hx : x ∉ st.visit ∧ l + 1 ≤ e
    · rw [if_pos hx, if_pos (by simpa using hx)]
      simp
    · rw [if_neg hx, if_neg (by simpa using hx)]
  visit y := by
    rw [h.visit, mem_looked_visit_iff]
    by_cases hy : y = x
    · subst hy
      simp [(List.nodup_cons.mp hnd).1]
    · rw [bump_cons hnd hy]
      simp [hy]
  level y := by
    rw [h.level, looked_level, HashMap.get_put]
    by_cases hy : y = x
    · subst hy
      simp [(List.nodup_cons.mp hnd).1]
    · rw [bump_cons hnd hy]
      simp [hy]

/-- **The loop over `popSet`** returns exactly when it gives the partner a level
within the bound. -/
theorem lookAll_cases (e : Int) (st : Search) (hnd : popSet.Nodup) (hpb : p ≠ b)
    (hl : st.level.get p = some l) (hb : b ∉ st.visit) :
    (lookAll e b p popSet st = .ok none ∧ b ∈ popSet ∧ l + 1 + bump p popSet b ≤ e) ∨
      ((∃ st', lookAll e b p popSet st = .ok (some st') ∧ Looked e p l popSet st st') ∧
        ¬(b ∈ popSet ∧ l + 1 + bump p popSet b ≤ e)) := by
  induction popSet generalizing st l with
  | nil =>
    refine Or.inr ⟨⟨st, rfl, ?_⟩, by simp⟩
    exact ⟨by simp, by simp, by simp⟩
  | cons x popSet ih =>
    rw [lookAll, look_eq hl]
    by_cases hfound : x ∉ st.visit ∧ l + 1 ≤ e ∧ x = b
    · obtain ⟨-, hle, rfl⟩ := hfound
      rw [if_pos ⟨hb, hle, rfl⟩]
      exact Or.inl ⟨rfl, List.mem_cons_self .., by simpa using hle⟩
    · rw [if_neg hfound]
      have hvisit : b ∉ (st.looked e x (l + 1)).visit := fun h => by
        rcases mem_looked_visit_iff.mp h with h | ⟨rfl, hle⟩
        · exact hb h
        · exact hfound ⟨hb, hle, rfl⟩
      -- `x` is not the partner found, so what remains to be found is behind it
      have hiff : (b ∈ x :: popSet ∧ l + 1 + bump p (x :: popSet) b ≤ e) ↔
          (b ∈ popSet ∧ (if p = x then l + 1 else l) + 1 + bump p popSet b ≤ e) := by
        by_cases hx : b = x
        · subst hx
          have hle : ¬ l + 1 ≤ e := fun hle => hfound ⟨hb, hle, rfl⟩
          simp [(List.nodup_cons.mp hnd).1, hle]
        · rw [bump_cons hnd hx]
          simp [hx]
      rw [hiff]
      rcases ih _ (List.nodup_cons.mp hnd).2 (looked_level_pop hl) hvisit with
        h | ⟨⟨st', h, hst'⟩, hn⟩
      · exact Or.inl h
      · exact Or.inr ⟨⟨st', h, hst'.cons hnd⟩, hn⟩

end Look

-- ---------------------------------------------------------------------------
-- The search follows the traversal
-- ---------------------------------------------------------------------------

/-- The variables of the search after a trail. -/
structure Follows (cc : CallerCallee) (ord : SearchOrder) (st : Search) (trail : Trail)
    (waiting : List String) : Prop where
  stack : st.stack = waiting
  visit : ∀ x, x ∈ st.visit ↔ x ∈ waiting ∨ x ∈ trail.map Prod.fst
  level : ∀ x ∈ st.visit, st.level.get x = some (levelAfter cc ord trail x)

section Search

variable {cc : CallerCallee} {ord : SearchOrder} {e : Int} {b n p : String} {st : Search}
  {trail : Trail} {waiting : List String}

theorem follows_start : Follows cc ord (Search.start n) [] [n] where
  stack := rfl
  visit x := by simp [Search.start]
  level x hx := by
    rw [Search.start, Finset.mem_singleton] at hx
    simp [Search.start, hx, levelAfter]

/-- The state after the looks of a visit follows the trail with that visit. -/
theorem Follows.visited (h : Follows cc ord st trail (p :: waiting)) {st' : Search}
    (hlook : Looked e p (levelAfter cc ord trail p) (calleesInOrder cc ord p)
      { st with stack := waiting } st') :
    Follows cc ord st' ((p, levelAfter cc ord trail p) :: trail)
      ((fresh cc ord e trail p waiting).reverse ++ waiting) where
  stack := by
    rw [hlook.stack, fresh]
    congr 2
    refine List.filter_congr fun x _ => ?_
    rw [decide_eq_decide, h.visit, given, not_or, and_assoc]
  visit x := by
    have hfresh : x ∈ fresh cc ord e trail p waiting ↔ x ∉ st.visit ∧
        x ∈ calleesInOrder cc ord p ∧ given cc ord p (levelAfter cc ord trail p) x ≤ e := by
      rw [fresh, List.mem_filter, decide_eq_true_eq, h.visit, not_or]
      tauto
    rw [hlook.visit, List.mem_append, List.mem_reverse, hfresh, h.visit, given]
    simp only [List.mem_cons, List.map_cons]
    tauto
  level x hx := by
    rw [hlook.level, levelAfter, given]
    split
    · rfl
    · next hnot =>
      have hold := (hlook.visit x).mp hx
      exact h.level x (hold.resolve_right fun hc => hnot hc.1)

/-- **A round is a visit**: it finds the partner when the visit gives it a level
within the bound, and otherwise leaves a state that follows. -/
theorem Follows.expand (h : Follows cc ord st trail (p :: waiting)) (hb : b ∉ st.visit) :
    (expand cc ord e b st = .inr (.ok true) ∧ b ∈ calleesInOrder cc ord p ∧
        given cc ord p (levelAfter cc ord trail p) b ≤ e) ∨
      ((∃ st', expand cc ord e b st = .inl st' ∧
          Follows cc ord st' ((p, levelAfter cc ord trail p) :: trail)
            ((fresh cc ord e trail p waiting).reverse ++ waiting)) ∧
        ¬(b ∈ calleesInOrder cc ord p ∧ given cc ord p (levelAfter cc ord trail p) b ≤ e)) := by
  have hp : p ∈ st.visit := (h.visit p).mpr (Or.inl (List.mem_cons_self ..))
  have hpb : p ≠ b := fun heq => hb (heq ▸ hp)
  have hcases := lookAll_cases e { st with stack := waiting }
    (nodup_calleesInOrder cc ord p) hpb (h.level p hp) hb
  rw [PartC.expand, h.stack]
  -- a function without callees leaves the traversal as it is, but for the trail
  cases hset : cc.get p with
  | none =>
    have hnil : calleesInOrder cc ord p = [] := by rw [calleesInOrder, hset]
    rw [hnil] at hcases ⊢
    refine Or.inr ⟨⟨{ st with stack := waiting }, by simp only [hset], ?_⟩, by simp⟩
    apply h.visited
    rw [hnil]
    exact ⟨by simp, by simp, by simp⟩
  | some popSet =>
    have hlist : calleesInOrder cc ord p = (ord.callees p).list popSet := by
      rw [calleesInOrder, hset]
    simp only [hset, ← hlist]
    rcases hcases with ⟨hlook, hfound⟩ | ⟨⟨st', hlook, hst'⟩, hn⟩
    · exact Or.inl ⟨by rw [hlook], hfound⟩
    · exact Or.inr ⟨⟨st', by rw [hlook], h.visited hst'⟩, hn⟩

/-- Every state of the search follows a trail, up to the last round. -/
theorem exists_follows (hnb : n ≠ b)
    (h : Loop.Reaches (PartC.expand cc ord e b) (Search.start n) st) :
    ∃ trail waiting, Traversal cc ord e n trail waiting ∧ Follows cc ord st trail waiting := by
  refine (h.invariant (P := fun st => SearchInv cc n b st ∧
    ∃ trail waiting, Traversal cc ord e n trail waiting ∧ Follows cc ord st trail waiting)
    ⟨searchInv_start, [], [n], .start, follows_start⟩ ?_).2
  rintro s₁ s₂ ⟨hinv, trail, waiting, htrail, hfollows⟩ hstep
  refine ⟨(hinv.expand hstep).1, ?_⟩
  -- nothing waits: the round would have ended the search
  cases waiting with
  | nil =>
    rw [PartC.expand, hfollows.stack] at hstep
    cases hstep
  | cons p waiting =>
    rcases hfollows.expand (e := e) (hinv.target hnb.symm) with ⟨hr, -⟩ | ⟨⟨st', hr, hst'⟩, -⟩
    · rw [hr] at hstep
      cases hstep
    · rw [hr, Sum.inl.injEq] at hstep
      subst hstep
      exact ⟨_, _, htrail.visit, hst'⟩

/-- Every trail is followed by a state of the search, unless it has found the
partner before. -/
theorem exists_reaches (hnb : n ≠ b) (h : Traversal cc ord e n trail waiting) :
    searchFrom cc ord e b n = .ok true ∨
      ∃ st, Loop.Reaches (PartC.expand cc ord e b) (Search.start n) st ∧
        Follows cc ord st trail waiting := by
  induction h with
  | start => exact Or.inr ⟨_, Loop.Reaches.refl _, follows_start⟩
  | visit _ ih =>
    rcases ih with hfound | ⟨st, hst, hfollows⟩
    · exact Or.inl hfound
    · have hb := (searchInv_reaches hst).target hnb.symm
      rcases hfollows.expand (e := e) hb with ⟨hr, -⟩ | ⟨⟨st', hr, hst'⟩, -⟩
      · exact Or.inl (searchFrom_of_last_round hst hr)
      · exact Or.inr ⟨st', hst.tail hr, hst'⟩

/-- **When the search finds the partner**: exactly when the traversal is in
time. -/
theorem searchFrom_true_iff :
    searchFrom cc ord e b n = .ok true ↔ n ≠ b ∧ InTime cc ord e n b := by
  constructor
  · intro h
    obtain ⟨st, hst, hlast⟩ := exists_last_round cc ord e b n
    rw [h] at hlast
    have hinv := searchInv_reaches hst
    have hnb : n ≠ b := by
      rcases expand_spec ord e hinv with ⟨-, hr⟩ | ⟨st', hr, -⟩ | ⟨-, hnb, -⟩
      · rw [hlast] at hr
        cases hr
      · rw [hlast] at hr
        cases hr
      · exact hnb
    -- the last round is the visit that finds the partner
    obtain ⟨trail, waiting, htrail, hfollows⟩ := exists_follows hnb hst
    cases waiting with
    | nil =>
      rw [PartC.expand, hfollows.stack] at hlast
      cases hlast
    | cons p waiting =>
      rcases hfollows.expand (e := e) (hinv.target hnb.symm) with
        ⟨-, hfound⟩ | ⟨⟨st', hr, -⟩, -⟩
      · exact ⟨hnb, trail, p, waiting, htrail, hfound⟩
      · rw [hlast] at hr
        cases hr
  · rintro ⟨hnb, trail, p, waiting, htrail, hfound⟩
    rcases exists_reaches hnb htrail with h | ⟨st, hst, hfollows⟩
    · exact h
    · have hb := (searchInv_reaches hst).target hnb.symm
      rcases hfollows.expand (e := e) hb with ⟨hr, -⟩ | ⟨-, hn⟩
      · exact searchFrom_of_last_round hst hr
      · exact absurd hfound hn

/-- A search that fails has visited what it could, and not the partner. -/
theorem exists_exhausted (hnb : n ≠ b) (h : searchFrom cc ord e b n = .ok false) :
    ∃ trail, Traversal cc ord e n trail [] ∧ b ∉ trail.map Prod.fst := by
  obtain ⟨st, hst, hlast⟩ := exists_last_round cc ord e b n
  have hinv := searchInv_reaches hst
  obtain ⟨trail, waiting, htrail, hfollows⟩ := exists_follows hnb hst
  have hnil : st.stack = [] := by
    rcases expand_spec ord e hinv with ⟨hs, -⟩ | ⟨st', hr, -⟩ | ⟨hr, -⟩
    · exact hs
    · rw [hlast] at hr
      cases hr
    · rw [hlast, h] at hr
      cases hr
  obtain rfl : waiting = [] := hfollows.stack.symm.trans hnil
  exact ⟨trail, htrail, fun hb =>
    hinv.target hnb.symm ((hfollows.visit b).mpr (Or.inr hb))⟩

end Search

end Pipair.PartC
