import Pipair.PartC.Expanded
import Pipair.PartD.Earlier

/-!
# What the order and the choice of the nodes do

A call graph is read node by node, and the maps are filled in that order. Here it is
shown that little of it remains.

* The programs that key `location` by sets print the same lines for call graphs in which
  the same callers call the same functions (`main_congr_calls`): the order of the nodes, the
  order and the repetitions of the callees and the nodes without callees do not matter.
* For pairs in order the callees are taken as they are listed, but the order and the
  repetitions of the nodes do not matter (`PartD.main_congr_nodes`).

A hash table presents its keys in an order that may depend on how it was filled. So the
loops have orders of their own for each of the two texts, and the lines are compared up to
their order; where the order of a loop shows in the lines, it has to be the same.

* What part A prints about a function comes from the nodes that call it
  (`run_by_function`): the functions can be looked at one by one, each on a part of the
  call graph.
-/

namespace Pipair

open Mining

-- ---------------------------------------------------------------------------
-- The same calls
-- ---------------------------------------------------------------------------

/-- Which sets of callees the callers list. -/
def calls (bs : List Block) : Finset (String × Finset String) :=
  ((bs.filter fun b => b.callees ≠ []).map fun b => (b.caller, b.callees.toFinset)).toFinset

section Calls

variable {bs bs' : List Block}

theorem mem_calls {c : String} {s : Finset String} :
    (c, s) ∈ calls bs ↔ ∃ b ∈ bs, b.caller = c ∧ b.callees ≠ [] ∧ b.callees.toFinset = s := by
  simp only [calls, List.mem_toFinset, List.mem_map, List.mem_filter, decide_eq_true_eq,
    Prod.mk.injEq]
  constructor
  · intro h
    obtain ⟨b, ⟨hb, hne⟩, hcaller, hs⟩ := h
    exact ⟨b, hb, hcaller, hne, hs⟩
  · intro h
    obtain ⟨b, hb, hcaller, hne, hs⟩ := h
    exact ⟨b, ⟨hb, hne⟩, hcaller, hs⟩

theorem lastCallees_congr (h : calls bs = calls bs') (hbs : (bs.map Block.caller).Nodup)
    (hbs' : (bs'.map Block.caller).Nodup) : lastCallees bs = lastCallees bs' := by
  apply HashMap.ext_get
  intro c
  ext s
  rw [get_lastCallees hbs, get_lastCallees hbs', ← mem_calls, ← mem_calls, h]

/-- What is asked of a node without regard to order and repetitions can be asked of the calls. -/
theorem mem_sites_calls {p : List String → Prop} [DecidablePred p] {q : Finset String → Prop}
    (hpq : ∀ l, p l ↔ l ≠ [] ∧ q l.toFinset) {c : String} :
    c ∈ sites bs p ↔ ∃ s, (c, s) ∈ calls bs ∧ q s := by
  simp only [mem_sites, mem_calls, hpq]
  constructor
  · intro h
    obtain ⟨b, hb, rfl, hne, hq⟩ := h
    exact ⟨_, ⟨b, hb, rfl, hne, rfl⟩, hq⟩
  · intro h
    obtain ⟨s, ⟨b, hb, rfl, hne, rfl⟩, hq⟩ := h
    exact ⟨b, hb, rfl, hne, hq⟩

theorem siteDatabase_congr (h : calls bs = calls bs') : siteDatabase bs = siteDatabase bs' := by
  have hsites : ∀ (p : List String → Prop) [DecidablePred p] (q : Finset String → Prop),
      (∀ l, p l ↔ l ≠ [] ∧ q l.toFinset) → sites bs p = sites bs' p := by
    intro p _ q hpq
    ext c
    rw [mem_sites_calls hpq, mem_sites_calls hpq, h]
  refine Database.ext_places (fun a => hsites (a ∈ ·) (a ∈ ·) fun l => ?_) fun a b =>
    hsites (fun l => a ∈ l ∧ b ∈ l) (fun s => a ∈ s ∧ b ∈ s) fun l => ?_
  · rw [List.mem_toFinset]
    exact (and_iff_right_of_imp List.ne_nil_of_mem).symm
  · rw [List.mem_toFinset, List.mem_toFinset]
    exact (and_iff_right_of_imp fun hab => List.ne_nil_of_mem hab.1).symm

end Calls

/-- The two runs print the same lines, in whatever order. -/
def SameLines (run run' : Except Fault (List BugLine)) : Prop :=
  ∃ out out', run = .ok out ∧ run' = .ok out' ∧ out.Perm out'

/--
**The same calls.** Let the callers of two texts list the same sets of functions. Then part A
prints the same lines on both, whatever the orders of its loops on either text. When no caller
heads two nodes of a text, so do the variants of part C that expand the callers, the one into
lists for every level but the largest `int`; and so does the variant that searches, for every
level, when the loops of its search have the same orders on both.
-/
theorem main_congr_calls (ord ord' : PrintOrder) (search : PartC.SearchOrder)
    (expand expand' : PartC.Expand.ExpandOrder) (e : Int) {text text' : List Char} (s : Int)
    (t : ℚ) (h : calls (blocks text) = calls (blocks text')) :
    SameLines (PartA.main ord text s t) (PartA.main ord' text' s t) ∧
    (((blocks text).map Block.caller).Nodup → ((blocks text').map Block.caller).Nodup →
      SameLines (PartC.main ord search e text s t) (PartC.main ord' search e text' s t) ∧
      (e < maxInt → SameLines (PartC.Expand.main ord expand e text s t)
        (PartC.Expand.main ord' expand' e text' s t)) ∧
      SameLines (PartC.SetExpand.main ord expand text s t)
        (PartC.SetExpand.main ord' expand' text' s t)) := by
  have hD := siteDatabase_congr h
  constructor
  · have hprints := PartA.run_prints ord (blocks text) s t
    rw [hD] at hprints
    rw [PartA.main_eq_run, PartA.main_eq_run]
    exact hprints.perm (PartA.run_prints ord' (blocks text') s t)
  intro hbs hbs'
  have hlast := lastCallees_congr h hbs hbs'
  refine ⟨?_, fun he => ?_, ?_⟩
  · have hprints := PartC.run_prints ord search e (blocks text) s t
    have hprints' := PartC.run_prints ord' search e (blocks text') s t
    rw [hD, PartC.stateOf_callerCallee, hlast] at hprints
    rw [PartC.stateOf_callerCallee] at hprints'
    rw [PartC.main_eq_run, PartC.main_eq_run]
    exact hprints.perm hprints'
  · have hprints := PartC.Expand.main_prints_leaves ord expand he text s t
    rw [hlast] at hprints
    exact hprints.perm (PartC.Expand.main_prints_leaves ord' expand' he text' s t)
  · have hprints := PartC.SetExpand.main_prints_near ord expand text s t
    rw [hD, hlast] at hprints
    exact hprints.perm (PartC.SetExpand.main_prints_near ord' expand' text' s t)

/-- Two nodes in the shortest form that is read. -/
def twoNodes : List Char := "Call'f'\n'A'\n'B'\n\nCall'A'\n'C'\n".toList

/-- The same nodes the other way round, with a callee listed twice and a node that calls
nothing. -/
def twoNodesTurned : List Char :=
  "Call'A'\n'C'\n\nCall'C'\n\nCall'f'\n'B'\n'A'\n'B'\n".toList

theorem main_congr_calls_twoNodes :
    SameLines (PartA.main default twoNodes 1 (1 / 2))
        (PartA.main (printing ["C", "B", "A"]) twoNodesTurned 1 (1 / 2)) ∧
      SameLines (PartC.Expand.main default default 1 twoNodes 1 (1 / 2))
        (PartC.Expand.main (printing ["C", "B", "A"]) default 1 twoNodesTurned 1 (1 / 2)) := by
  obtain ⟨hA, hC⟩ := main_congr_calls default (printing ["C", "B", "A"])
    ⟨fun _ => default, default⟩ default default 1 1 (1 / 2)
    (show calls (blocks twoNodes) = calls (blocks twoNodesTurned) by decide +kernel)
  exact ⟨hA, (hC (by decide +kernel) (by decide +kernel)).2.1 (by decide)⟩

namespace PartD

/--
**The same nodes.** Let two texts have the same nodes, in whatever order and however often.

1. The first version of part D prints the same lines on both, whatever the orders of its loops
   on either text.
2. When no callee has a comma in its name, so does the later version, with its combined lines
   taken apart: which of the two pairs stands first in them depends on the orders.
3. Under the same orders of its loops the later version returns the same result on both, with
   the lines in the same order, commas in the names or not.
-/
theorem main_congr_nodes (ord ord' ordE ordE' : PrintOrder) {text text' : List Char} (s : Int)
    (t : ℚ) (h : ∀ b, b ∈ blocks text ↔ b ∈ blocks text') :
    (∃ out out', Earlier.main ordE text s t = .ok out ∧ Earlier.main ordE' text' s t = .ok out' ∧
      out.Perm out') ∧
    (CommaFree (blocks text) → ∃ out out', main ord text s t = .ok out ∧
      main ord' text' s t = .ok out' ∧
      (out.flatMap Earlier.split).Perm (out'.flatMap Earlier.split)) ∧
    main ord text s t = main ord text' s t := by
  have hloc : ((blocks text).foldl actions.runBlock init).location =
      ((blocks text').foldl actions.runBlock init).location := by
    apply Index.ext_get
    intro k
    ext c
    rw [mem_get_location, mem_get_location]
    simp only [h]
  have hearlier : Earlier.main ordE text s t = Earlier.main ordE text' s t := by
    rw [Earlier.main_eq_run, Earlier.main_eq_run, Earlier.run, Earlier.run, Earlier.actions_eq,
      hloc]
  have hsame : ∀ ord, main ord text s t = main ord text' s t := by
    intro ord
    rw [main_eq_run, main_eq_run, run, run, hloc]
  obtain ⟨outE, outE', houtE, houtE', hperm⟩ := (Earlier.run_prints ordE (blocks text') s t).perm
    (Earlier.run_prints ordE' (blocks text') s t)
  refine ⟨⟨outE, outE', ?_, ?_, hperm⟩, fun hcomma => ?_, hsame ord⟩
  · rw [hearlier, Earlier.main_eq_run, houtE]
  · rw [Earlier.main_eq_run, houtE']
  · have hcomma' : CommaFree (blocks text') := fun b hb => hcomma b ((h b).mpr hb)
    obtain ⟨out, hout, hreports⟩ := reports_run ord s t hcomma'
    obtain ⟨out', hout', hreports'⟩ := reports_run ord' s t hcomma'
    refine ⟨out, out', ?_, ?_, ?_⟩
    · rw [hsame, main_eq_run, hout]
    · rw [main_eq_run, hout']
    · exact (Earlier.flatMap_split_perm hreports houtE).trans
        (Earlier.flatMap_split_perm hreports' houtE).symm

/-- The nodes of `twoNodes` the other way round. -/
def twoNodesSwapped : List Char := "Call'A'\n'C'\n\nCall'f'\n'A'\n'B'\n".toList

theorem main_congr_nodes_twoNodes :
    (∃ out out', main default twoNodes 1 (1 / 2) = .ok out ∧
      main default twoNodesSwapped 1 (1 / 2) = .ok out' ∧
      (out.flatMap Earlier.split).Perm (out'.flatMap Earlier.split)) ∧
    main default twoNodes 1 (1 / 2) = main default twoNodesSwapped 1 (1 / 2) := by
  obtain ⟨-, hsplit, hsame⟩ := main_congr_nodes default default default default 1 (1 / 2) fun _ =>
    (show (blocks twoNodes).Perm (blocks twoNodesSwapped) by decide +kernel).mem_iff
  exact ⟨hsplit (by decide +kernel), hsame⟩

end PartD

-- ---------------------------------------------------------------------------
-- One function after the other
-- ---------------------------------------------------------------------------

/-- The nodes that call a function. -/
def nodesCalling (bs : List Block) (a : String) : List Block := bs.filter fun b => a ∈ b.callees

section Function

variable {bs : List Block} {a : String}

theorem sites_nodesCalling {p : List String → Prop} [DecidablePred p] (hp : ∀ l, p l → a ∈ l) :
    sites (nodesCalling bs a) p = sites bs p := by
  ext c
  simp only [mem_sites, nodesCalling, List.mem_filter, decide_eq_true_eq]
  constructor
  · intro h
    obtain ⟨b, ⟨hb, -⟩, h⟩ := h
    exact ⟨b, hb, h⟩
  · intro h
    obtain ⟨b, hb, hcaller, hpb⟩ := h
    exact ⟨b, ⟨hb, hp _ hpb⟩, hcaller, hpb⟩

theorem single_nodesCalling :
    (siteDatabase (nodesCalling bs a)).single a = (siteDatabase bs).single a :=
  sites_nodesCalling (p := (a ∈ ·)) fun _ h => h

theorem pair_nodesCalling (b : String) :
    (siteDatabase (nodesCalling bs a)).pair a b = (siteDatabase bs).pair a b :=
  sites_nodesCalling (p := fun l => a ∈ l ∧ b ∈ l) fun _ h => h.1

/-- The violations of the rules for `a` can be seen on the nodes that call `a`. -/
theorem violation_nodesCalling {s : Int} {t : ℚ} {b c : String} :
    (siteDatabase (nodesCalling bs a)).Violation s t a b c ↔
      (siteDatabase bs).Violation s t a b c := by
  constructor
  · intro h
    obtain ⟨h1, h2, h3, h4, h5⟩ := h
    rw [pair_nodesCalling] at h2 h3 h5
    rw [single_nodesCalling] at h3 h4
    exact ⟨h1, h2, h3, h4, h5⟩
  · intro h
    obtain ⟨h1, h2, h3, h4, h5⟩ := h
    rw [← pair_nodesCalling] at h2 h3 h5
    rw [← single_nodesCalling] at h3 h4
    exact ⟨h1, h2, h3, h4, h5⟩

theorem bugLine_nodesCalling (b c : String) :
    bugLine (siteDatabase (nodesCalling bs a)) a b c = bugLine (siteDatabase bs) a b c := by
  rw [bugLine, bugLine, pair_nodesCalling, single_nodesCalling]

end Function

/--
**One function after the other.** Run part A once for each function `a`, in any orders of its
loops, on the nodes that call `a` only, and keep the lines about `a`. Put together for the
functions that are called, these are the lines of the run on the whole call graph.
-/
theorem run_by_function (ord : PrintOrder) (ords : String → PrintOrder) (bs : List Block)
    (s : Int) (t : ℚ) :
    ∃ (out : List BugLine) (outs : String → List BugLine), PartA.run ord bs s t = .ok out ∧
      (∀ a, PartA.run (ords a) (nodesCalling bs a) s t = .ok (outs a)) ∧
      ∀ functions : List String, functions.Nodup →
        (∀ b ∈ bs, ∀ a ∈ b.callees, a ∈ functions) →
        out.Perm (functions.flatMap fun a => (outs a).filter (·.function = a)) := by
  obtain ⟨out, hout, hnd, hmem⟩ := PartA.run_prints ord bs s t
  choose outs houts hnds hmems using
    fun a => PartA.run_prints (ords a) (nodesCalling bs a) s t
  refine ⟨out, outs, hout, houts, fun functions hfunctions hcalled => ?_⟩
  -- what is kept for a function are its lines of the whole run
  have hkept : ∀ a line, line ∈ (outs a).filter (·.function = a) ↔
      ∃ b c, (siteDatabase bs).Violation s t a b c ∧ line = bugLine (siteDatabase bs) a b c := by
    intro a line
    rw [List.mem_filter, hmems, decide_eq_true_eq]
    constructor
    · intro h
      obtain ⟨⟨a', b, c, hviol, rfl⟩, ha⟩ := h
      obtain rfl : a' = a := ha
      exact ⟨b, c, violation_nodesCalling.mp hviol, bugLine_nodesCalling b c⟩
    · intro h
      obtain ⟨b, c, hviol, rfl⟩ := h
      exact ⟨⟨a, b, c, violation_nodesCalling.mpr hviol, (bugLine_nodesCalling b c).symm⟩, rfl⟩
  have hnodup : (functions.flatMap fun a => (outs a).filter (·.function = a)).Nodup := by
    refine nodup_flatMap_of_disjoint hfunctions (fun a _ => (hnds a).filter _) ?_
    intro a _ a' _ line hline hline'
    have h := (List.mem_filter.mp hline).2
    have h' := (List.mem_filter.mp hline').2
    rw [decide_eq_true_eq] at h h'
    exact h.symm.trans h'
  rw [List.perm_ext_iff_of_nodup hnd hnodup]
  intro line
  rw [hmem, List.mem_flatMap]
  constructor
  · intro h
    obtain ⟨a, b, c, hviol, rfl⟩ := h
    obtain ⟨node, hnode, -, ha⟩ := mem_sites (p := (a ∈ ·)).mp hviol.mem
    exact ⟨a, hcalled node hnode a ha, (hkept a _).mpr ⟨b, c, hviol, rfl⟩⟩
  · intro h
    obtain ⟨a, -, hline⟩ := h
    obtain ⟨b, c, h⟩ := (hkept a line).mp hline
    exact ⟨a, b, c, h⟩

end Pipair
