import Pipair.PartA
import Pipair.PartC.Bounded

/-!
# Part C, the variant that searches near a bug

`Group63/pi/partC/pipair_java.java`. The call graph is read as in part A, and
the callees of each caller are stored besides in `callerCallee`, at the end of
its block. A bug line is printed unless `reachReducedBug` finds the missing
partner near it.

`main_filters_partA` relates the run to part A: it does not fault, and prints the
lines of part A that the search does not suppress. No dereference fails because
a caller in `location` has a block with callees, so it is in `callerCallee` too
(`mem_callerCallee`).
-/

namespace Pipair.PartC

open Mining

/-- The static maps, and the callees of the block being read. -/
structure State extends PartA.State where
  callees : Finset String
  callerCallee : CallerCallee

def addValueToMap (st : State) (addValue addLocation : String) : State :=
  { st with toState := PartA.addValueToMap st.toState addValue addLocation }

/-- What `main` does with the lines it reads. -/
def actions : Actions State where
  header st := { st with nearByCallees := ∅, callees := ∅ }
  callee st callee caller :=
    let st := addValueToMap st callee caller
    { st with
      nearByCallees := insert callee st.nearByCallees
      callees := insert callee st.callees }
  footer st caller :=
    if st.callees.Nonempty then
      { st with callerCallee := st.callerCallee.put caller st.callees }
    else st

def init : State := { PartA.init with callees := ∅, callerCallee := HashMap.empty }

/-- The test before a line is printed. -/
def flag (callerCallee : CallerCallee) (ord : SearchOrder) (expandLevel : Int)
    (singleKey pipairKey : Finset String) (locationTempStr : String) : Except Fault Bool := do
  let nearBy ← deref (callerCallee.get locationTempStr)
  reachReducedBug callerCallee ord expandLevel singleKey pipairKey
    ((ord.callees locationTempStr).list nearBy)

def printBug (ord : PrintOrder) (search : SearchOrder) (expandLevel : Int) (st : State) :
    Int → ℚ → Except Fault (List BugLine) :=
  printBugWith (flag st.callerCallee search expandLevel) ord st.location

/-- The blocks of a call graph, then the bugs. -/
def run (ord : PrintOrder) (search : SearchOrder) (expandLevel : Int) (bs : List Block)
    (support : Int) (confidence : ℚ) : Except Fault (List BugLine) :=
  printBug ord search expandLevel (bs.foldl actions.runBlock init) support confidence

def main (ord : PrintOrder) (search : SearchOrder) (expandLevel : Int) (text : List Char)
    (support : Int) (confidence : ℚ) : Except Fault (List BugLine) :=
  printBug ord search expandLevel (scanLoop actions text init) support confidence

theorem main_eq_run (ord : PrintOrder) (search : SearchOrder) (e : Int) (text : List Char)
    (s : Int) (t : ℚ) : main ord search e text s t = run ord search e (blocks text) s t := by
  rw [main, run, scanLoop_eq_blocks]

-- ---------------------------------------------------------------------------
-- Reading the call graph
-- ---------------------------------------------------------------------------

/-- The state after the blocks of a call graph. -/
def stateOf (bs : List Block) : State := bs.foldl actions.runBlock init

theorem foldl_callees (cs : List String) (caller : String) (st : State) :
    (cs.foldl (fun st callee => actions.callee st callee caller) st).toState =
        cs.foldl (fun st callee => PartA.actions.callee st callee caller) st.toState ∧
      (cs.foldl (fun st callee => actions.callee st callee caller) st).callees =
        st.callees ∪ cs.toFinset ∧
      (cs.foldl (fun st callee => actions.callee st callee caller) st).callerCallee =
        st.callerCallee := by
  induction cs generalizing st with
  | nil => simp
  | cons c cs ih =>
    -- the callee line does to `location` what it does in part A
    obtain ⟨h1, h2, h3⟩ := ih (actions.callee st c caller)
    refine ⟨h1, ?_, h3⟩
    rw [List.foldl_cons, h2, List.toFinset_cons, Finset.union_insert, ← Finset.insert_union]
    rfl

theorem footer_toState (st : State) (caller : String) :
    (actions.footer st caller).toState = st.toState := by
  show (if st.callees.Nonempty then _ else _ : State).toState = _
  split <;> rfl

theorem footer_callerCallee (st : State) (caller : String) :
    (actions.footer st caller).callerCallee =
      if st.callees.Nonempty then st.callerCallee.put caller st.callees
      else st.callerCallee := by
  show (if st.callees.Nonempty then _ else _ : State).callerCallee = _
  split <;> rfl

/-- A block does to `location` what it does in part A. -/
theorem runBlock_toState (st : State) (b : Block) :
    (actions.runBlock st b).toState = PartA.actions.runBlock st.toState b := by
  rw [Actions.runBlock, footer_toState, (foldl_callees ..).1]
  rfl

/-- A block with callees stores them for its caller, in place of those of an
earlier block. -/
theorem runBlock_callerCallee (st : State) (b : Block) :
    (actions.runBlock st b).callerCallee =
      if b.callees = [] then st.callerCallee
      else st.callerCallee.put b.caller b.callees.toFinset := by
  obtain ⟨-, h2, h3⟩ := foldl_callees b.callees b.caller (actions.header st)
  rw [show (actions.header st).callees = ∅ from rfl, Finset.empty_union] at h2
  rw [Actions.runBlock, footer_callerCallee, h2, h3]
  by_cases hnil : b.callees = []
  · rw [if_pos hnil, hnil]
    rfl
  · rw [if_neg hnil, if_pos ((List.toFinset_nonempty_iff _).mpr hnil)]
    rfl

theorem stateOf_location (bs : List Block) :
    (stateOf bs).location = (bs.foldl PartA.actions.runBlock PartA.init).location := by
  have h : ∀ (bs : List Block) (st : State),
      (bs.foldl actions.runBlock st).toState = bs.foldl PartA.actions.runBlock st.toState := by
    intro bs
    induction bs with
    | nil => exact fun _ => rfl
    | cons b bs ih =>
      intro st
      rw [List.foldl_cons, List.foldl_cons, ih, runBlock_toState]
  rw [stateOf, h]
  rfl

theorem records_stateOf (bs : List Block) : Records (stateOf bs).location (siteDatabase bs) := by
  rw [stateOf_location]
  exact PartA.records_location bs

/-- The callees stored for a caller are those of its last block with any. -/
theorem stateOf_callerCallee (bs : List Block) :
    (stateOf bs).callerCallee = lastCallees bs := by
  induction bs using List.reverseRecOn with
  | nil => rfl
  | append_singleton bs b ih =>
    rw [lastCallees_append, ← ih, stateOf, List.foldl_append]
    exact runBlock_callerCallee (stateOf bs) b

/-- A caller with a callee is stored. -/
theorem mem_callerCallee (bs : List Block) {a c : String} (h : c ∈ callersOf bs a) :
    ∃ s, (stateOf bs).callerCallee.get c = some s := by
  rw [stateOf_callerCallee]
  exact exists_lastCallees h

-- ---------------------------------------------------------------------------
-- What is printed
-- ---------------------------------------------------------------------------

/-- Whether the search suppresses the bug of `a` in `c` for the pair `{a, b}`. -/
def verdict (callerCallee : CallerCallee) (ord : SearchOrder) (e : Int) (a b c : String) : Bool :=
  flag callerCallee ord e {a} {a, b} c = .ok true

section Print

variable {bs : List Block} {search : SearchOrder} {e s : Int} {t : ℚ} {a b c : String}

/-- **The test** of a caller of `a` does not fault, and says whether the search from
one of its callees finds the partner. -/
theorem flag_spec (search : SearchOrder) (e : Int) (hab : a ≠ b) (hc : c ∈ callersOf bs a) :
    ∃ nearBy v, (stateOf bs).callerCallee.get c = some nearBy ∧
      flag (stateOf bs).callerCallee search e {a} {a, b} c = .ok v ∧
      (v = true ↔ ∃ n ∈ nearBy, n ≠ a ∧
        searchFrom (stateOf bs).callerCallee search e b n = .ok true) := by
  obtain ⟨nearBy, hnear⟩ := mem_callerCallee bs hc
  obtain ⟨v, hv, hiff⟩ := reachReducedBug_eq (stateOf bs).callerCallee search e hab
    ((search.callees c).list nearBy)
  refine ⟨nearBy, v, hnear, ?_, ?_⟩
  · rw [flag, hnear, deref_some, ok_bind, hv]
  · simpa only [Iteration.mem_list] using hiff

theorem flag_eq (search : SearchOrder) (e : Int) (hab : a ≠ b) (hc : c ∈ callersOf bs a) :
    flag (stateOf bs).callerCallee search e {a} {a, b} c =
      .ok (verdict (stateOf bs).callerCallee search e a b c) := by
  obtain ⟨nearBy, v, -, hflag, -⟩ := flag_spec search e hab hc
  rw [verdict, hflag]
  cases v <;> rfl

/-- **Part C prints the violations that the search does not suppress**, each
once, and does not fault. -/
theorem run_prints (ord : PrintOrder) (search : SearchOrder) (e : Int) (bs : List Block)
    (s : Int) (t : ℚ) :
    Prints (run ord search e bs s t) fun line =>
      ∃ a b c, (siteDatabase bs).Violation s t a b c ∧
        verdict (stateOf bs).callerCallee search e a b c = false ∧
        line = bugLine (siteDatabase bs) a b c :=
  printBugWith_prints _ (records_stateOf bs) fun _ _ _ hab hc => flag_eq search e hab hc

-- ---------------------------------------------------------------------------
-- Part C against part A
-- ---------------------------------------------------------------------------

theorem pair_lexicographic (a b : String) :
    ({(lexicographic a b).1, (lexicographic a b).2} : Finset String) = {a, b} := by
  unfold lexicographic
  split
  · rfl
  · exact Finset.pair_comm b a

/-- The test for a printed line. -/
def lineFlag (cc : CallerCallee) (search : SearchOrder) (e : Int) (line : BugLine) :
    Except Fault Bool :=
  flag cc search e {line.function} {line.pair.1, line.pair.2} line.caller

theorem lineFlag_bugLine {cc : CallerCallee} (D : Database String String) :
    lineFlag cc search e (bugLine D a b c) = flag cc search e {a} {a, b} c := by
  simp only [lineFlag, bugLine, pair_lexicographic]

/-- The lines of part C are the lines of part A with the test `false`. -/
theorem mem_run_iff {ord ordA : PrintOrder} {out outA : List BugLine}
    (hout : run ord search e bs s t = .ok out) (houtA : PartA.run ordA bs s t = .ok outA)
    (line : BugLine) :
    line ∈ out ↔ line ∈ outA ∧
      lineFlag (stateOf bs).callerCallee search e line = .ok false := by
  rw [(run_prints ord search e bs s t).mem_iff hout, (PartA.run_prints ordA bs s t).mem_iff houtA]
  constructor
  · intro h
    obtain ⟨a, b, c, hviol, hv, rfl⟩ := h
    refine ⟨⟨a, b, c, hviol, rfl⟩, ?_⟩
    rw [lineFlag_bugLine, flag_eq search e hviol.ne hviol.mem, hv]
  · intro h
    obtain ⟨⟨a, b, c, hviol, rfl⟩, hflag⟩ := h
    rw [lineFlag_bugLine, flag_eq search e hviol.ne hviol.mem] at hflag
    exact ⟨a, b, c, hviol, Except.ok.inj hflag, rfl⟩

theorem flag_false_of_nonpos (he : e ≤ 0) (hab : a ≠ b) (hc : c ∈ callersOf bs a) :
    flag (stateOf bs).callerCallee search e {a} {a, b} c = .ok false := by
  obtain ⟨nearBy, v, -, hflag, hiff⟩ := flag_spec search e hab hc
  cases v with
  | false => exact hflag
  | true =>
    -- no chain has at least one and at most zero calls
    obtain ⟨n, -, -, hs⟩ := hiff.mp rfl
    obtain ⟨k, h1, h2, -⟩ := searchFrom_sound hs
    omega

/--
**The search is justified.**

1. For any call graph, partner and function near the bug, the `while` loop has
   its result within `searchFuel` rounds and keeps it under any larger bound.
2. `reachReducedBug` does not diverge, and on two different functions it returns.
3. When it returns `true`, a function near the bug other than `a` calls `b` by a
   chain of at least one and at most `expandLevel` calls.
4. So a line of part A that part C does not print has such a chain from a callee
   of its caller to its missing partner.
-/
theorem search_justified (cc : CallerCallee) (search : SearchOrder) (e : Int) :
    (∀ b n fuel, searchFuel cc ≤ fuel →
      Loop.iterate (expand cc search e b) fuel (Search.start n) =
        some (searchFrom cc search e b n) ∧ searchFrom cc search e b n ≠ .error .diverged) ∧
    (∀ (a b : String) (nearBy : Finset String) (it : Iteration String),
      reachReducedBug cc search e {a} {a, b} (it.list nearBy) ≠ .error .diverged ∧
      (a ≠ b → ∃ v, reachReducedBug cc search e {a} {a, b} (it.list nearBy) = .ok v) ∧
      (reachReducedBug cc search e {a} {a, b} (it.list nearBy) = .ok true →
        ∃ n ∈ nearBy, n ≠ a ∧ ∃ k : Nat, 1 ≤ k ∧ (k : Int) ≤ e ∧ Walk (Calls cc) k n b)) ∧
    (∀ (ord ordA : PrintOrder) (bs : List Block) (s : Int) (t : ℚ) (out outA : List BugLine),
      run ord search e bs s t = .ok out → PartA.run ordA bs s t = .ok outA →
      ∀ line ∈ outA, line ∉ out →
        ∃ b nearBy n, line.pair = lexicographic line.function b ∧ line.function ≠ b ∧
          (stateOf bs).callerCallee.get line.caller = some nearBy ∧
          n ∈ nearBy ∧ n ≠ line.function ∧
          ∃ k : Nat, 1 ≤ k ∧ (k : Int) ≤ e ∧ Walk (Calls (stateOf bs).callerCallee) k n b) := by
  refine ⟨fun b n fuel hfuel => ⟨iterate_expand cc search e b n hfuel, ?_⟩,
    fun a b nearBy it => ⟨?_, ?_, ?_⟩, ?_⟩
  · obtain ⟨v, hv⟩ := searchFrom_ok cc search e b n
    rw [hv]
    exact nofun
  · by_cases hab : a = b
    · rw [← hab, reachReducedBug_self]
      exact nofun
    · obtain ⟨v, hv, -⟩ := reachReducedBug_eq cc search e hab
        (it.list nearBy)
      rw [hv]
      exact nofun
  · intro hab
    obtain ⟨v, hv, -⟩ := reachReducedBug_eq cc search e hab
      (it.list nearBy)
    exact ⟨v, hv⟩
  · intro h
    have hab : a ≠ b := by
      rintro rfl
      rw [reachReducedBug_self] at h
      cases h
    obtain ⟨n, hn, hna, hchain⟩ := reachReducedBug_sound hab h
    exact ⟨n, it.mem_list.mp hn, hna, hchain⟩
  · intro ord ordA bs s t out outA hout houtA line hline hnot
    obtain ⟨a, b, c, hviol, rfl⟩ := ((PartA.run_prints ordA bs s t).mem_iff houtA line).mp hline
    obtain ⟨nearBy, v, hnear, hflag, hiff⟩ := flag_spec search e hviol.ne hviol.mem
    -- the line is left out, so the test returned `true`
    have htrue : v = true := by
      have hn : ¬ lineFlag (stateOf bs).callerCallee search e (bugLine _ a b c) = .ok false :=
        fun hfalse => hnot ((mem_run_iff hout houtA _).mpr ⟨hline, hfalse⟩)
      rw [lineFlag_bugLine, hflag, Except.ok.injEq, Bool.not_eq_false] at hn
      exact hn
    obtain ⟨n, hn, hna, hsearch⟩ := hiff.mp htrue
    exact ⟨b, nearBy, n, rfl, hviol.ne, hnear, hn, hna, searchFrom_sound hsearch⟩

/--
**Part C is part A filtered.** For every text, thresholds and expansion level,
whatever the orders of the loops:

1. every caller in `location` is in `callerCallee`, every function on the stack
   of a search has a level, and a pair minus one of its functions is not empty;
2. the run does not fault, and its output is that of part A on the same text,
   without the lines for which `reachReducedBug` does not return `false`;
3. for `expandLevel ≤ 0` the outputs coincide.
-/
theorem main_filters_partA (ord ordA : PrintOrder) (search : SearchOrder) (e : Int)
    (text : List Char) (s : Int) (t : ℚ) :
    (∀ k c, c ∈ (scanLoop actions text init).location.get k →
      ∃ nearBy, (scanLoop actions text init).callerCallee.get c = some nearBy) ∧
    (∀ b n st, Loop.Reaches (expand (scanLoop actions text init).callerCallee search e b)
        (Search.start n) st → ∀ x ∈ st.stack, ∃ l, st.level.get x = some l) ∧
    (∀ k ∈ (scanLoop actions text init).location.keys, 1 < k.card → ∀ a ∈ k, (k \ {a}).Nonempty) ∧
    ∃ out outA, main ord search e text s t = .ok out ∧ PartA.main ordA text s t = .ok outA ∧
      out.Perm (outA.filter fun line =>
        lineFlag (scanLoop actions text init).callerCallee search e line = .ok false) ∧
      (e ≤ 0 → out.Perm outA) := by
  have hst : scanLoop actions text init = stateOf (blocks text) := scanLoop_eq_blocks ..
  rw [hst]
  refine ⟨?_, ?_, ?_, ?_⟩
  · intro k c hc
    rw [stateOf_location] at hc
    obtain ⟨b, hb, ⟨x, hx, -⟩, rfl⟩ := (PartA.mem_get_location _ k c).mp hc
    exact mem_callerCallee _ (mem_sites.mpr ⟨b, hb, rfl, List.mem_toFinset.mp hx⟩)
  · intro b n st hreach x hx
    have hinv := searchInv_reaches hreach
    exact hinv.visit_level x (hinv.stack_visit x hx)
  · intro k hk hcard a ha
    obtain ⟨b, hab, rfl⟩ := (records_stateOf (blocks text)).exists_partner hk hcard ha
    exact ⟨b, by simp [Ne.symm hab]⟩
  · rw [main_eq_run, PartA.main_eq_run]
    obtain ⟨out, hout, hnd, hmem⟩ := run_prints ord search e (blocks text) s t
    obtain ⟨outA, houtA, hndA, hmemA⟩ := PartA.run_prints ordA (blocks text) s t
    refine ⟨out, outA, hout, houtA, ?_, fun he => ?_⟩
    · rw [List.perm_ext_iff_of_nodup hnd (hndA.filter _)]
      intro line
      rw [mem_run_iff hout houtA, List.mem_filter, decide_eq_true_eq]
    · rw [List.perm_ext_iff_of_nodup hnd hndA]
      intro line
      rw [mem_run_iff hout houtA, and_iff_left_iff_imp, hmemA]
      intro h
      obtain ⟨a, b, c, hviol, rfl⟩ := h
      rw [lineFlag_bugLine]
      exact flag_false_of_nonpos he hviol.ne hviol.mem

end Print

end Pipair.PartC
