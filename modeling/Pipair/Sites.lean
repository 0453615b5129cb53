import Pipair.Scan
import Pipair.Library.HashMap
import Pipair.Library.Mining

/-!
# Where functions are called

The abstract reading of a call graph: a function is seen at the callers that
have a block with it, a pair of functions at the callers that have one block
with both, and an ordered pair at the callers that have one block in which the
first is called before the second. These are the databases the programs mine.

Some programs keep besides, for each caller, the callees of its last block
(`lastCallees`).
-/

namespace Pipair

open Mining

/-- The callers that have a block whose callees satisfy `p`. -/
def sites (bs : List Block) (p : List String → Prop) [DecidablePred p] : Finset String :=
  ((bs.filter fun b => p b.callees).map Block.caller).toFinset

variable {bs : List Block} {p q : List String → Prop} [DecidablePred p] [DecidablePred q]

theorem mem_sites {c : String} :
    c ∈ sites bs p ↔ ∃ b ∈ bs, c = b.caller ∧ p b.callees := by
  simp only [sites, List.mem_toFinset, List.mem_map, List.mem_filter, decide_eq_true_eq]
  constructor
  · intro h
    obtain ⟨b, ⟨hb, hp⟩, rfl⟩ := h
    exact ⟨b, hb, rfl, hp⟩
  · intro h
    obtain ⟨b, hb, rfl, hp⟩ := h
    exact ⟨b, ⟨hb, hp⟩, rfl⟩

theorem sites_mono (h : ∀ l, p l → q l) : sites bs p ⊆ sites bs q := by
  intro c hc
  obtain ⟨b, hb, rfl, hp⟩ := mem_sites.mp hc
  exact mem_sites.mpr ⟨b, hb, rfl, h _ hp⟩

theorem sites_congr (h : ∀ l, p l ↔ q l) : sites bs p = sites bs q :=
  (sites_mono fun l => (h l).mp).antisymm (sites_mono fun l => (h l).mpr)

/-- When no caller heads two blocks, its sites are as many as its blocks. -/
theorem card_sites (hbs : (bs.map Block.caller).Nodup) :
    (sites bs p).card = bs.countP fun b => p b.callees := by
  have hnd : ((bs.filter fun b => p b.callees).map Block.caller).Nodup :=
    (List.filter_sublist.map Block.caller).nodup hbs
  rw [sites, List.toFinset_card_of_nodup hnd, List.length_map, List.countP_eq_length_filter]

/-- The callers of a function. -/
def callersOf (bs : List Block) (a : String) : Finset String := sites bs (a ∈ ·)

/-- The callers that call both functions in one block. -/
def callersOfBoth (bs : List Block) (a b : String) : Finset String :=
  sites bs fun l => a ∈ l ∧ b ∈ l

/-- The callers that call `x` before `y` in one block. -/
def callersInOrder (bs : List Block) (x y : String) : Finset String :=
  sites bs fun l => [x, y].Sublist l

/-- Functions and pairs of functions, by their callers. -/
def siteDatabase (bs : List Block) : Database String String where
  single := callersOf bs
  pair := callersOfBoth bs
  pair_comm _ _ := sites_congr fun _ => and_comm
  pair_subset _ _ := sites_mono fun _ h => h.1

/-- Functions and ordered pairs of functions, by their callers. -/
def orderedDatabase (bs : List Block) : OrderedDatabase String String where
  single := callersOf bs
  pair := callersInOrder bs
  pair_subset_left _ _ := sites_mono fun _ h => h.subset (by simp)
  pair_subset_right _ _ := sites_mono fun _ h => h.subset (by simp)

theorem pair_sublist_or {l : List String} {x y : String} (hxy : x ≠ y) :
    x ∈ l ∧ y ∈ l ↔ [x, y].Sublist l ∨ [y, x].Sublist l := by
  constructor
  · intro h
    obtain ⟨hx, hy⟩ := h
    -- `y` stands before or behind this call of `x`
    obtain ⟨l₁, l₂, rfl⟩ := List.append_of_mem hx
    rcases List.mem_append.mp hy with hy | hy
    · exact Or.inr ((List.singleton_sublist.mpr hy).append
        (List.singleton_sublist.mpr (List.mem_cons_self ..)))
    · have hy := (List.mem_cons.mp hy).resolve_left (Ne.symm hxy)
      exact Or.inl (((List.singleton_sublist.mpr hy).cons_cons x).trans
        (List.sublist_append_right ..))
  · rintro (h | h)
    · exact ⟨h.subset (by simp), h.subset (by simp)⟩
    · exact ⟨h.subset (by simp), h.subset (by simp)⟩

/-- Two functions are called by those who call them in one order or the other. -/
theorem orderedDatabase_forgets (bs : List Block) :
    (orderedDatabase bs).Forgets (siteDatabase bs) where
  single _ := rfl
  pair x y hxy := by
    ext c
    simp only [siteDatabase, orderedDatabase, callersOfBoth, callersInOrder, Finset.mem_union,
      mem_sites, pair_sublist_or hxy]
    constructor
    · intro h
      obtain ⟨b, hb, hc, h | h⟩ := h
      · exact Or.inl ⟨b, hb, hc, h⟩
      · exact Or.inr ⟨b, hb, hc, h⟩
    · rintro (⟨b, hb, hc, h⟩ | ⟨b, hb, hc, h⟩)
      · exact ⟨b, hb, hc, Or.inl h⟩
      · exact ⟨b, hb, hc, Or.inr h⟩

/-! ## The callees of a caller -/

/-- The callees of each caller, as listed in the last of its blocks that lists
any. -/
def lastCallees (bs : List Block) : HashMap String (Finset String) :=
  bs.foldl (fun m b => if b.callees = [] then m else m.put b.caller b.callees.toFinset)
    HashMap.empty

theorem lastCallees_append (bs : List Block) (b : Block) :
    lastCallees (bs ++ [b]) =
      if b.callees = [] then lastCallees bs
      else (lastCallees bs).put b.caller b.callees.toFinset := by
  rw [lastCallees, List.foldl_append]
  rfl

/-- A caller with a callee has callees. -/
theorem exists_lastCallees {bs : List Block} {a c : String} (h : c ∈ callersOf bs a) :
    ∃ s, (lastCallees bs).get c = some s := by
  obtain ⟨b, hb, rfl, ha⟩ := mem_sites.mp h
  clear h
  induction bs using List.reverseRecOn with
  | nil => exact absurd hb List.not_mem_nil
  | append_singleton bs b' ih =>
    rw [lastCallees_append]
    -- the block is an earlier one, whose callees may have been replaced, or the last
    rcases List.mem_append.mp hb with hb | hb
    · obtain ⟨s, hs⟩ := ih hb
      split
      · exact ⟨s, hs⟩
      · rw [HashMap.get_put]
        split
        · exact ⟨_, rfl⟩
        · exact ⟨s, hs⟩
    · obtain rfl := List.mem_singleton.mp hb
      rw [if_neg (List.ne_nil_of_mem ha)]
      exact ⟨_, HashMap.get_put_self ..⟩

/-- The callees of a caller: those of a block of it after which no block of it
lists any. -/
theorem get_lastCallees_iff {bs : List Block} {c : String} {s : Finset String} :
    (lastCallees bs).get c = some s ↔
      ∃ pre b post, bs = pre ++ b :: post ∧ b.caller = c ∧ b.callees ≠ [] ∧
        (∀ b' ∈ post, b'.caller = c → b'.callees = []) ∧ b.callees.toFinset = s := by
  induction bs using List.reverseRecOn with
  | nil => simp [lastCallees]
  | append_singleton bs b ih =>
    -- the last block is one of `c` with callees, or the block of `c` is found before it
    by_cases hlast : b.caller = c ∧ b.callees ≠ []
    · obtain ⟨rfl, hne⟩ := hlast
      rw [lastCallees_append, if_neg hne, HashMap.get_put_self, Option.some.injEq]
      constructor
      · intro h
        exact ⟨bs, b, [], rfl, rfl, hne, by simp, h⟩
      · intro h
        obtain ⟨pre, b₁, post, heq, hcaller, -, hpost, hs⟩ := h
        rcases List.eq_nil_or_concat post with rfl | ⟨post, b₂, rfl⟩
        · obtain ⟨-, rfl⟩ := List.append_singleton_inj.mp heq
          exact hs
        · rw [List.concat_eq_append, ← List.cons_append, ← List.append_assoc] at heq
          obtain ⟨-, rfl⟩ := List.append_singleton_inj.mp heq
          exact absurd (hpost b (by simp) rfl) hne
    · have hget : (lastCallees (bs ++ [b])).get c = (lastCallees bs).get c := by
        rw [lastCallees_append]
        split
        · rfl
        · next hne => rw [HashMap.get_put, if_neg fun hc => hlast ⟨hc.symm, hne⟩]
      rw [hget, ih]
      constructor
      · intro h
        obtain ⟨pre, b₁, post, rfl, hcaller, hne, hpost, hs⟩ := h
        refine ⟨pre, b₁, post ++ [b], by simp, hcaller, hne, fun b' hb' hc => ?_, hs⟩
        rcases List.mem_append.mp hb' with hb' | hb'
        · exact hpost b' hb' hc
        · obtain rfl := List.mem_singleton.mp hb'
          by_contra hne'
          exact hlast ⟨hc, hne'⟩
      · intro h
        obtain ⟨pre, b₁, post, heq, hcaller, hne, hpost, hs⟩ := h
        rcases List.eq_nil_or_concat post with rfl | ⟨post, b₂, rfl⟩
        · obtain ⟨-, rfl⟩ := List.append_singleton_inj.mp heq
          exact absurd ⟨hcaller, hne⟩ hlast
        · rw [List.concat_eq_append, ← List.cons_append, ← List.append_assoc] at heq
          obtain ⟨rfl, rfl⟩ := List.append_singleton_inj.mp heq
          exact ⟨pre, b₁, post, rfl, hcaller, hne,
            fun b' hb' => hpost b' (by simp [hb']), hs⟩

/-- **Distinct headers.** When no caller heads two blocks, the callees of a caller
are those of its block. -/
theorem get_lastCallees {bs : List Block} (hbs : (bs.map Block.caller).Nodup) {c : String}
    {s : Finset String} :
    (lastCallees bs).get c = some s ↔
      ∃ b ∈ bs, b.caller = c ∧ b.callees ≠ [] ∧ b.callees.toFinset = s := by
  rw [get_lastCallees_iff]
  constructor
  · intro h
    obtain ⟨pre, b, post, rfl, hcaller, hne, -, hs⟩ := h
    exact ⟨b, by simp, hcaller, hne, hs⟩
  · intro h
    obtain ⟨b, hb, rfl, hne, hs⟩ := h
    obtain ⟨pre, post, rfl⟩ := List.append_of_mem hb
    refine ⟨pre, b, post, rfl, rfl, hne, fun b' hb' hc => ?_, hs⟩
    -- no later block has the same caller
    rw [List.map_append, List.map_cons, List.nodup_append, List.nodup_cons] at hbs
    exact absurd (hc ▸ List.mem_map_of_mem hb') hbs.2.1.1

/-- The call graph of the test program `test2`. -/
def test2 : List Block :=
  [⟨"main", ["scope1", "scope2", "scope3", "scope4", "scope5", "scope6"]⟩,
    ⟨"scope1", ["A", "B", "C", "D"]⟩, ⟨"scope2", ["A", "C", "D"]⟩, ⟨"scope3", ["A", "B"]⟩,
    ⟨"scope4", ["B", "D", "scope1"]⟩, ⟨"scope5", ["B", "D", "A"]⟩, ⟨"scope6", ["B", "D"]⟩,
    ⟨"A", ["printf"]⟩, ⟨"B", ["printf"]⟩, ⟨"C", ["printf"]⟩, ⟨"D", ["printf"]⟩]

end Pipair
