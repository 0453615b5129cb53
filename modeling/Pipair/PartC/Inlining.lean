import Pipair.PartC.Expanded

/-!
# Part C, the expansions as inlining

A call is inlined when the callees of the function called take its place. Here this is
done to the blocks themselves, with lists and without maps: `inlined bs n` is the call
graph `bs` after `n` rounds.

The variant that expands the callers is part A after inlining: with `expandLevel = n` it
prints what part A prints on the last blocks of the callers after `n` rounds
(`Expand.main_inlined`), whatever recursion there is among the functions. The variant with
sets is part A on the blocks as they are, and besides on the last ones with the calls of
one round added (`SetExpand.main_inlined_besides`).
-/

namespace Pipair.PartC

open Mining

-- ---------------------------------------------------------------------------
-- The last blocks
-- ---------------------------------------------------------------------------

/-- The blocks that list callees and are not followed by another one of their caller that
does. -/
def lastBlocks : List Block → List Block
  | [] => []
  | b :: bs =>
    if b.callees = [] ∨ ∃ b' ∈ bs, b'.caller = b.caller ∧ b'.callees ≠ [] then lastBlocks bs
    else b :: lastBlocks bs

theorem mem_lastBlocks {b : Block} {bs : List Block} (h : b ∈ lastBlocks bs) :
    b ∈ bs ∧ b.callees ≠ [] := by
  induction bs with
  | nil => exact absurd h List.not_mem_nil
  | cons b' bs ih =>
    rw [lastBlocks] at h
    split at h
    · exact ⟨List.mem_cons_of_mem _ (ih h).1, (ih h).2⟩
    · next hlast =>
      rcases List.mem_cons.mp h with rfl | h
      · exact ⟨List.mem_cons_self .., fun hnil => hlast (Or.inl hnil)⟩
      · exact ⟨List.mem_cons_of_mem _ (ih h).1, (ih h).2⟩

/-- No caller heads two of them. -/
theorem nodup_lastBlocks (bs : List Block) : ((lastBlocks bs).map Block.caller).Nodup := by
  induction bs with
  | nil => exact List.nodup_nil
  | cons b bs ih =>
    rw [lastBlocks]
    split
    · exact ih
    · next hlast =>
      refine List.nodup_cons.mpr ⟨fun hmem => ?_, ih⟩
      obtain ⟨b', hb', hcaller⟩ := List.mem_map.mp hmem
      obtain ⟨hmem', hne⟩ := mem_lastBlocks hb'
      exact hlast (Or.inr ⟨b', hmem', hcaller, hne⟩)

/-- What a caller is stored with after some more blocks: the callees of the last of them that
lists any, or else what was there. -/
theorem get_foldl_lastCallees (bs : List Block) (m : CallerCallee) (c : String) :
    (bs.foldl (fun m b => if b.callees = [] then m else m.put b.caller b.callees.toFinset)
      m).get c = ((lastCallees bs).get c).or (m.get c) := by
  induction bs using List.reverseRecOn with
  | nil => rfl
  | append_singleton bs b ih =>
    rw [lastCallees_append, List.foldl_append, List.foldl_cons, List.foldl_nil]
    by_cases hnil : b.callees = []
    · rw [if_pos hnil, if_pos hnil, ih]
    · rw [if_neg hnil, if_neg hnil, HashMap.get_put, HashMap.get_put]
      split
      · rfl
      · exact ih

theorem get_lastCallees_cons (b : Block) (bs : List Block) (c : String) :
    (lastCallees (b :: bs)).get c =
      ((lastCallees bs).get c).or
        (if b.callees ≠ [] ∧ c = b.caller then some b.callees.toFinset else none) := by
  have hfold := get_foldl_lastCallees bs (lastCallees [b]) c
  rw [lastCallees, List.foldl_cons]
  refine hfold.trans (congrArg _ ?_)
  by_cases hnil : b.callees = []
  · simp [lastCallees, hnil]
  · simp [lastCallees, hnil, HashMap.get_put]

/-- The other blocks leave nothing behind. -/
theorem lastCallees_lastBlocks (bs : List Block) :
    lastCallees (lastBlocks bs) = lastCallees bs := by
  induction bs with
  | nil => rfl
  | cons b bs ih =>
    apply HashMap.ext_get
    intro c
    rw [lastBlocks, get_lastCallees_cons]
    split
    · next hlast =>
      rw [ih]
      split
      · next hput =>
        obtain ⟨hne, rfl⟩ := hput
        -- a later block of the caller has callees, so these are not looked at
        obtain ⟨b', hb', hcaller, hne'⟩ := hlast.resolve_left hne
        obtain ⟨a, ha⟩ := List.exists_mem_of_ne_nil _ hne'
        have hc : b.caller ∈ callersOf bs a := mem_sites.mpr ⟨b', hb', hcaller.symm, ha⟩
        obtain ⟨s, hs⟩ := exists_lastCallees hc
        rw [hs, Option.some_or]
      · rw [Option.or_none]
    · rw [get_lastCallees_cons, ih]

-- ---------------------------------------------------------------------------
-- Inlining
-- ---------------------------------------------------------------------------

/-- The calls that take the place of a call of `a`: those of its block, or the call itself when
there is none. -/
def unfoldCall (bs : List Block) (a : String) : List String :=
  match bs.find? fun b => b.caller = a with
  | some b => b.callees
  | none => [a]

/-- Some calls after `n` rounds. -/
def inlineCalls (bs : List Block) : Nat → List String → List String
  | 0, callees => callees
  | n + 1, callees => (inlineCalls bs n callees).flatMap (unfoldCall bs)

/-- The blocks after `n` rounds, each of which unfolds the calls as they were at first. -/
def inlined (bs : List Block) (n : Nat) : List Block :=
  bs.map fun b => { b with callees := inlineCalls bs n b.callees }

example : inlined [⟨"f", ["g", "A"]⟩, ⟨"g", ["f", "B"]⟩] 1 =
    [⟨"f", ["f", "B", "A"]⟩, ⟨"g", ["g", "A", "B"]⟩] := by decide

/-- The blocks with the calls of one round besides their own. -/
def inlinedBesides (bs : List Block) : List Block :=
  bs.map fun b => { b with callees := b.callees ++ inlineCalls bs 1 b.callees }

section Inlining

variable {bs : List Block} {b : Block} {a c x : String}

theorem calls_iff (hbs : (bs.map Block.caller).Nodup) (hb : b ∈ bs) :
    Calls (lastCallees bs) b.caller x ↔ x ∈ b.callees := by
  rw [SetExpand.calls_lastCallees hbs, callersOf, mem_sites]
  constructor
  · intro h
    obtain ⟨b', hb', hcaller, hx⟩ := h
    rwa [List.inj_on_of_nodup_map hbs hb hb' hcaller]
  · intro hx
    exact ⟨b, hb, rfl, hx⟩

theorem mem_keySet_iff (hbs : (bs.map Block.caller).Nodup) (hne : ∀ b ∈ bs, b.callees ≠ []) :
    c ∈ (lastCallees bs).keySet ↔ ∃ b ∈ bs, b.caller = c := by
  constructor
  · intro h
    obtain ⟨s, hs⟩ := HashMap.exists_get_of_mem h
    obtain ⟨b, hb, hcaller, -⟩ := (get_lastCallees hbs).mp hs
    exact ⟨b, hb, hcaller⟩
  · intro h
    obtain ⟨b, hb, hcaller⟩ := h
    exact HashMap.mem_keySet_of_get
      ((get_lastCallees hbs).mpr ⟨b, hb, hcaller, hne b hb, rfl⟩)

/-- A call gives way to the calls of its function. -/
theorem mem_unfoldCall (hbs : (bs.map Block.caller).Nodup) (hne : ∀ b ∈ bs, b.callees ≠ []) :
    x ∈ unfoldCall bs a ↔
      Calls (lastCallees bs) a x ∨ (x = a ∧ a ∉ (lastCallees bs).keySet) := by
  rw [unfoldCall, mem_keySet_iff hbs hne]
  split
  · next b hfind =>
    have hb := List.mem_of_find?_eq_some hfind
    obtain rfl : b.caller = a := by simpa using List.find?_some hfind
    rw [calls_iff hbs hb, or_iff_left fun h => h.2 ⟨b, hb, rfl⟩]
  · next hfind =>
    have hnone : ¬ ∃ b ∈ bs, b.caller = a := by simpa using hfind
    have hcall : ¬ Calls (lastCallees bs) a x := by
      rw [SetExpand.calls_lastCallees hbs, callersOf, mem_sites]
      rintro ⟨b, hb, rfl, -⟩
      exact hnone ⟨b, hb, rfl⟩
    rw [or_iff_right hcall, and_iff_left hnone, List.mem_singleton]

/-- Inlined once more, the unfolding of a caller ends one call further on, or where it ended
already. -/
theorem endsAt_succ {cc : CallerCallee} {n : Nat} :
    Expand.EndsAt cc (n + 1 : Nat) c x ↔
      ∃ a, Expand.EndsAt cc n c a ∧ (Calls cc a x ∨ (x = a ∧ a ∉ cc.keySet)) := by
  simp only [Expand.EndsAt, Int.natCast_nonneg, true_and, Int.toNat_natCast]
  constructor
  · rintro (hw | ⟨k, h1, hk, hw, hx⟩)
    · obtain ⟨a, hw, hcall⟩ := Walk.succ_iff.mp hw
      exact ⟨a, Or.inl hw, Or.inl hcall⟩
    · -- a walk that ends early has ended before, or ends now
      refine ⟨x, ?_, Or.inr ⟨rfl, hx⟩⟩
      by_cases hlast : k = n + 1
      · exact Or.inl (hlast ▸ hw)
      · exact Or.inr ⟨k, h1, by omega, hw, hx⟩
  · rintro ⟨a, hw | ⟨k, h1, hk, hw, ha⟩, hcall | ⟨rfl, hx⟩⟩
    · exact Or.inl (.tail hw hcall)
    · exact Or.inr ⟨n + 1, by omega, le_rfl, hw, hx⟩
    · obtain ⟨s, hs, -⟩ := hcall
      exact absurd (HashMap.mem_keySet_of_get hs) ha
    · exact Or.inr ⟨k, h1, by omega, hw, hx⟩

/-- **What the rounds leave** of the calls of a block. -/
theorem mem_inlineCalls (hbs : (bs.map Block.caller).Nodup) (hne : ∀ b ∈ bs, b.callees ≠ [])
    (hb : b ∈ bs) (n : Nat) :
    x ∈ inlineCalls bs n b.callees ↔ Expand.EndsAt (lastCallees bs) n b.caller x := by
  induction n generalizing x with
  | zero =>
    have hno : ¬ ∃ k : Nat, 1 ≤ k ∧ (k : Int) ≤ (0 : Nat) ∧
        Walk (Calls (lastCallees bs)) k b.caller x ∧ x ∉ (lastCallees bs).keySet := by
      rintro ⟨k, h1, hk, -⟩
      omega
    rw [inlineCalls, ← calls_iff hbs hb, Expand.EndsAt, or_iff_left hno, Walk.succ_iff_head]
    simp
  | succ n ih =>
    rw [inlineCalls, List.mem_flatMap, endsAt_succ]
    exact exists_congr fun a => and_congr ih (mem_unfoldCall hbs hne)

theorem mem_sites_map {f : Block → List String} {p : List String → Prop} [DecidablePred p] :
    c ∈ sites (bs.map fun b => { b with callees := f b }) p ↔
      ∃ b ∈ bs, c = b.caller ∧ p (f b) := by
  rw [mem_sites]
  constructor
  · intro h
    obtain ⟨b', hb', rfl, hp⟩ := h
    obtain ⟨b, hb, rfl⟩ := List.mem_map.mp hb'
    exact ⟨b, hb, rfl, hp⟩
  · intro h
    obtain ⟨b, hb, rfl, hp⟩ := h
    exact ⟨_, List.mem_map_of_mem hb, rfl, hp⟩

/-- **Blocks with other callees** place the functions at the callers that the new callees are
related to. -/
theorem siteDatabase_map {f : Block → List String} {R : String → String → Prop}
    [∀ c a, Decidable (R c a)] (hbs : (bs.map Block.caller).Nodup)
    (hne : ∀ b ∈ bs, b.callees ≠ []) (hf : ∀ b ∈ bs, ∀ x, x ∈ f b ↔ R b.caller x) :
    siteDatabase (bs.map fun b => { b with callees := f b }) =
      Database.ofRelation (lastCallees bs).keySet R := by
  have hkey := fun c => mem_keySet_iff (c := c) hbs hne
  refine Database.ext_places (fun a => ?_) fun a x => ?_
  · ext c
    simp only [siteDatabase, callersOf, mem_sites_map, Database.ofRelation, Finset.mem_filter, hkey]
    constructor
    · intro h
      obtain ⟨b, hb, rfl, ha⟩ := h
      exact ⟨⟨b, hb, rfl⟩, (hf b hb a).mp ha⟩
    · intro h
      obtain ⟨⟨b, hb, rfl⟩, ha⟩ := h
      exact ⟨b, hb, rfl, (hf b hb a).mpr ha⟩
  · ext c
    simp only [siteDatabase, callersOfBoth, mem_sites_map, Database.ofRelation,
      Finset.mem_filter, hkey]
    constructor
    · intro h
      obtain ⟨b, hb, rfl, ha, hx⟩ := h
      exact ⟨⟨b, hb, rfl⟩, (hf b hb a).mp ha, (hf b hb x).mp hx⟩
    · intro h
      obtain ⟨⟨b, hb, rfl⟩, ha, hx⟩ := h
      exact ⟨b, hb, rfl, (hf b hb a).mpr ha, (hf b hb x).mpr hx⟩

/-- Blocks read one list after the other. -/
theorem siteDatabase_append (bs bs' : List Block) :
    siteDatabase (bs ++ bs') = (siteDatabase bs).union (siteDatabase bs') := by
  have hsites : ∀ (p : List String → Prop) [DecidablePred p],
      sites (bs ++ bs') p = sites bs p ∪ sites bs' p := by
    intro p _
    rw [sites, List.filter_append, List.map_append, List.toFinset_append]
    rfl
  exact Database.ext_places (fun a => hsites (a ∈ ·)) fun a x => hsites fun l => a ∈ l ∧ x ∈ l

end Inlining

namespace Expand

/--
**Expansion is inlining.** For every text, recursive functions and repeated headers included,
all thresholds and orders of the loops, the variant that expands the callers succeeds and,

1. with `expandLevel = n`, less than the largest `int`, prints the lines that part A prints on
   the last blocks of the callers after `n` rounds of inlining;
2. with a negative `expandLevel`, prints nothing.
-/
theorem main_inlined (ord ordA : PrintOrder) (expand : ExpandOrder) (text : List Char)
    (s : Int) (t : ℚ) :
    (∀ n : Nat, (n : Int) < maxInt → ∃ out outA, main ord expand n text s t = .ok out ∧
      PartA.run ordA (inlined (lastBlocks (blocks text)) n) s t = .ok outA ∧ out.Perm outA) ∧
    ∀ e < 0, main ord expand e text s t = .ok [] := by
  constructor
  · intro n hn
    classical
    have hne : ∀ b ∈ lastBlocks (blocks text), b.callees ≠ [] := fun b hb => (mem_lastBlocks hb).2
    have hdb : siteDatabase (inlined (lastBlocks (blocks text)) n) =
        leafDatabase (lastCallees (blocks text)) n := by
      rw [← lastCallees_lastBlocks]
      exact siteDatabase_map (nodup_lastBlocks _) hne fun b hb x =>
        mem_inlineCalls (nodup_lastBlocks _) hne hb n
    have hA := PartA.run_prints ordA (inlined (lastBlocks (blocks text)) n) s t
    rw [hdb] at hA
    exact (main_prints_leaves ord expand hn text s t).perm hA
  · intro e he
    have hmax : e < maxInt := he.trans (by decide)
    obtain ⟨out, hrun, -, hlines⟩ := main_prints_leaves ord expand hmax text s t
    -- no function is found anywhere
    have hnil : out = [] := by
      refine List.eq_nil_iff_forall_not_mem.mpr fun line hline => ?_
      obtain ⟨a, b, c, hviol, -⟩ := (hlines line).mp hline
      classical
      have hends := (Finset.mem_filter.mp hviol.mem).2
      exact absurd hends.1 (by omega)
    rw [hrun, hnil]

/-- Two rounds of inlining. -/
theorem main_inlined_nested :
    ∃ out outA, main default default (2 : Nat) nested 1 (1 / 2) = .ok out ∧
      PartA.run default (inlined (lastBlocks (blocks nested)) 2) 1 (1 / 2) = .ok outA ∧
      out.Perm outA :=
  (main_inlined default default default nested 1 (1 / 2)).1 2 (by decide)

end Expand

namespace SetExpand

/-- Within two calls there are the callees, and what takes their place in one round. -/
theorem near_iff {cc : CallerCallee} {c x : String} :
    Near cc c x ↔ Calls cc c x ∨ Expand.EndsAt cc (1 : Nat) c x := by
  simp only [Near, Expand.EndsAt, Int.natCast_nonneg, true_and, Int.toNat_natCast]
  constructor
  · intro h
    obtain ⟨k, h1, h2, hw⟩ := h
    obtain rfl | rfl : k = 1 ∨ k = 2 := by omega
    · obtain ⟨y, hy, hcall⟩ := Walk.succ_iff.mp hw
      exact Or.inl (Walk.zero_iff.mp hy ▸ hcall)
    · exact Or.inr (Or.inl hw)
  · rintro (hcall | hw | ⟨k, h1, hk, hw, -⟩)
    · exact ⟨1, le_rfl, by omega, .single hcall⟩
    · exact ⟨2, by omega, le_rfl, hw⟩
    · exact ⟨k, h1, by omega, hw⟩

/--
**Expansion into sets is inlining besides.** For every text, recursive functions and repeated
headers included, all thresholds and orders of the loops, the variant that expands the callers
into sets prints the lines that part A prints on the blocks of the text and, behind them, the
last blocks of the callers with the calls of one round of inlining added.
-/
theorem main_inlined_besides (ord ordA : PrintOrder) (expand : Expand.ExpandOrder)
    (text : List Char) (s : Int) (t : ℚ) :
    ∃ out outA, main ord expand text s t = .ok out ∧
      PartA.run ordA (blocks text ++ inlinedBesides (lastBlocks (blocks text))) s t = .ok outA ∧
      out.Perm outA := by
  classical
  have hne : ∀ b ∈ lastBlocks (blocks text), b.callees ≠ [] := fun b hb => (mem_lastBlocks hb).2
  have hnd := nodup_lastBlocks (blocks text)
  have hbesides : siteDatabase (inlinedBesides (lastBlocks (blocks text))) =
      nearDatabase (lastCallees (blocks text)) := by
    rw [← lastCallees_lastBlocks]
    refine siteDatabase_map hnd hne fun b hb x => ?_
    rw [List.mem_append, near_iff, calls_iff hnd hb, mem_inlineCalls hnd hne hb]
  have hA := PartA.run_prints ordA
    (blocks text ++ inlinedBesides (lastBlocks (blocks text))) s t
  rw [siteDatabase_append, hbesides] at hA
  exact (main_prints_near ord expand text s t).perm hA

end SetExpand

end Pipair.PartC
