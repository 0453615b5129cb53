import Pipair.PartD.Printed

/-!
# Part D, before the lines were merged

`proj/qi/partD/pipair_D.java`, an earlier version of part D. It reads the call
graph in the same way and prints one line for every pair and caller, without
looking for the reverse order; the code for that is there, but commented out.

`run_split` relates the two versions: taking the combined lines of the later one
apart gives the lines of the earlier one.
-/

namespace Pipair.PartD.Earlier

open Mining

-- ---------------------------------------------------------------------------
-- The program
-- ---------------------------------------------------------------------------

def addValueToMap (st : State) (addValue addLocation : String) : State :=
  -- add otherpair positive order
  let location :=
    st.nearByCallees.foldl (fun location key => location.add [key, addValue] addLocation)
      st.location
  -- add selfpair
  { st with location := location.add [addValue] addLocation }

/-- What `main` does with the lines it reads. -/
def actions : Actions State where
  header st := { st with nearByCallees := [] }
  callee st callee caller :=
    let st := addValueToMap st callee caller
    { st with nearByCallees := st.nearByCallees ++ [callee] }
  footer st _ := st

/-- The two versions read the call graph alike. -/
theorem actions_eq : actions = PartD.actions := rfl

/-- What `printBug` prints for a pair that meets the thresholds. -/
def printCallers (ord : PrintOrder) (location : Location) (singleKey pipairKey : List String)
    (singleKeyStr : String) (supportPair : Nat) (confidencePair : ℚ) :
    Except Fault (List BugLine) := do
  let x ← element pipairKey 0
  let y ← element pipairKey 1
  -- the callers of the reverse order are looked up here too, and not used
  let pair : Reported := ⟨(x, y), supportPair, confidencePair⟩
  let locationTemp := (← deref (location.lookup singleKey)) \ (← deref (location.lookup pipairKey))
  forEach (fun locationTempStr => pure [.single singleKeyStr locationTempStr pair])
    ((ord.callers singleKey pipairKey).list locationTemp)

/-- The loop over `pipairKey` for a key with one function. -/
def printPairs (ord : PrintOrder) (location : Location) (support : Int) (confidence : ℚ)
    (singleKey : List String) : Except Fault (List BugLine) := do
  let supportKey := (← deref (location.lookup singleKey)).card
  let singleKeyStr ← element singleKey 0
  forEach (fun pipairKey =>
      if 1 < pipairKey.length ∧ singleKeyStr ∈ pipairKey then do
        let supportPair := (← deref (location.lookup pipairKey)).card
        let confidencePair : ℚ := supportPair / supportKey
        if support ≤ supportKey ∧ support ≤ supportPair ∧ confidencePair < 1 ∧
            confidence ≤ confidencePair then
          printCallers ord location singleKey pipairKey singleKeyStr supportPair confidencePair
        else pure []
      else pure [])
    ((ord.pipairKeys singleKey).list location.keys)

def printBug (ord : PrintOrder) (location : Location) (support : Int) (confidence : ℚ) :
    Except Fault (List BugLine) :=
  forEach (fun key =>
      if key.length = 1 then printPairs ord location support confidence key else pure [])
    (ord.singleKeys.list location.keys)

/-- The blocks of a call graph, then the bugs. -/
def run (ord : PrintOrder) (bs : List Block) (support : Int) (confidence : ℚ) :
    Except Fault (List BugLine) :=
  printBug ord (bs.foldl actions.runBlock init).location support confidence

def main (ord : PrintOrder) (text : List Char) (support : Int) (confidence : ℚ) :
    Except Fault (List BugLine) :=
  printBug ord (scanLoop actions text init).location support confidence

theorem main_eq_run (ord : PrintOrder) (text : List Char) (support : Int) (confidence : ℚ) :
    main ord text support confidence = run ord (blocks text) support confidence := by
  rw [main, run, scanLoop_eq_blocks]

-- ---------------------------------------------------------------------------
-- What is printed
-- ---------------------------------------------------------------------------

section Print

variable {D : OrderedDatabase String String} {ord : PrintOrder} {s : Int} {t : ℚ}
  {location : Location}

theorem singleLine_inj {a x y c a' x' y' c' : String}
    (h : singleLine D a x y c = singleLine D a' x' y' c') :
    a = a' ∧ (x = x' ∧ y = y') ∧ c = c' := by
  simp only [singleLine, reported, BugLine.single.injEq, Reported.mk.injEq, Prod.mk.injEq] at h
  obtain ⟨ha, hc, hxy, -, -⟩ := h
  exact ⟨ha, hxy, hc⟩

/-- A pair that meets the thresholds has a line for every caller outside it. -/
theorem printCallers_prints (hloc : Records location D) {a x y : String}
    (hrule : D.Rule s t a x y) (ha : [a] ∈ location.keys) :
    Prints (printCallers ord location [a] [x, y] a (D.pair x y).card
        (Mining.confidence (D.pair x y) (D.single a)))
      fun line => ∃ c, D.Violation s t a x y c ∧ line = singleLine D a x y c := by
  have hpair : [x, y] ∈ location.keys := by
    rw [Index.mem_keys_iff, hloc.pair]
    exact hrule.occurs
  simp only [printCallers, element_zero, element_one, ok_bind, Index.lookup_of_mem_keys ha,
    Index.lookup_of_mem_keys hpair, deref_some, hloc.single, hloc.pair]
  refine (Prints.loop (P := fun c line => line = singleLine D a x y c)
    (Iteration.nodup_list ..) ?round ?once).congr ?same
  case round =>
    intro c _
    exact Prints.single _
  case once =>
    rintro c - c' - x rfl h
    exact (singleLine_inj h).2.2
  case same =>
    intro line
    simp only [Iteration.mem_list, Finset.mem_sdiff]
    constructor
    · intro h
      obtain ⟨c, ⟨hc, hn⟩, hline⟩ := h
      exact ⟨c, ⟨hrule, hc, hn⟩, hline⟩
    · intro h
      obtain ⟨c, hviol, hline⟩ := h
      exact ⟨c, ⟨hviol.mem, hviol.notMem⟩, hline⟩

/-- The loop over the pairs prints the violations of the rules for `a`. -/
theorem printPairs_prints (hloc : Records location D) {a : String} (ha : [a] ∈ location.keys) :
    Prints (printPairs ord location s t [a])
      fun line => ∃ x y c, D.Violation s t a x y c ∧ line = singleLine D a x y c := by
  simp only [printPairs, Index.lookup_of_mem_keys ha, deref_some, ok_bind, element_zero,
    hloc.single]
  refine (Prints.loop (P := fun k line => ∃ x y c, k = [x, y] ∧ D.Violation s t a x y c ∧
    line = singleLine D a x y c) (Iteration.nodup_list ..) ?round ?once).congr ?same
  case round =>
    intro k hk
    rw [Iteration.mem_list] at hk
    rcases hloc.keys k hk with ⟨z, rfl⟩ | ⟨x, y, rfl⟩
    · rw [if_neg (by simp)]
      exact Prints.nil (by simp)
    · have hne : (D.pair x y).Nonempty := by
        rw [← hloc.pair]
        exact Index.mem_keys_iff.mp hk
      -- the keys of two functions that print something are the rules for `a`
      have hnothing : ¬ D.Rule s t a x y → ∀ line, ¬ ∃ x' y' c, [x, y] = [x', y'] ∧
          D.Violation s t a x' y' c ∧ line = singleLine D a x' y' c := by
        intro hn line h
        obtain ⟨x', y', c, hkey, hviol, -⟩ := h
        obtain ⟨rfl, rfl⟩ : x = x' ∧ y = y' := by simpa using hkey
        exact hn hviol.rule
      rw [Index.lookup_of_mem_keys hk, deref_some, ok_bind, hloc.pair]
      by_cases hmem : a = x ∨ a = y
      · rw [if_pos (by simpa using hmem)]
        by_cases hq : Qualifies s t (D.single a) (D.pair x y)
        · rw [if_pos ⟨hq.support_single, hq.support_pair, hq.confidence_lt, hq.confidence_ge⟩]
          refine (printCallers_prints hloc ⟨hmem, hne, hq⟩ ha).congr fun line => ?_
          constructor
          · intro h
            obtain ⟨c, h⟩ := h
            exact ⟨x, y, c, rfl, h⟩
          · intro h
            obtain ⟨x', y', c, hkey, h⟩ := h
            obtain ⟨rfl, rfl⟩ : x = x' ∧ y = y' := by simpa using hkey
            exact ⟨c, h⟩
        · rw [if_neg fun h => hq ⟨h.1, h.2.1, h.2.2.1, h.2.2.2⟩]
          exact Prints.nil (hnothing fun h => hq h.qualifies)
      · rw [if_neg (by simpa using hmem)]
        exact Prints.nil (hnothing fun h => hmem h.member)
  case once =>
    rintro k - k' - line ⟨x, y, c, rfl, -, rfl⟩ ⟨x', y', c', rfl, -, h⟩
    obtain ⟨-, ⟨rfl, rfl⟩, -⟩ := singleLine_inj h
    rfl
  case same =>
    intro line
    constructor
    · intro h
      obtain ⟨k, -, x, y, c, -, h⟩ := h
      exact ⟨x, y, c, h⟩
    · intro h
      obtain ⟨x, y, c, hviol, hline⟩ := h
      refine ⟨[x, y], ?_, x, y, c, rfl, hviol, hline⟩
      rw [Iteration.mem_list, Index.mem_keys_iff, hloc.pair]
      exact hviol.rule.occurs

/-- **What is printed**: one line for every violation. -/
theorem printBug_prints (hloc : Records location D) :
    Prints (printBug ord location s t)
      fun line => ∃ a x y c, D.Violation s t a x y c ∧ line = singleLine D a x y c := by
  refine (Prints.loop (P := fun k line => ∃ a x y c, k = [a] ∧ D.Violation s t a x y c ∧
    line = singleLine D a x y c) (Iteration.nodup_list ..) ?round ?once).congr ?same
  case round =>
    intro k hk
    rw [Iteration.mem_list] at hk
    -- keys with two functions print nothing here
    rcases hloc.keys k hk with ⟨a, rfl⟩ | ⟨x, y, rfl⟩
    · rw [if_pos (by simp)]
      refine (printPairs_prints hloc hk).congr fun line => ?_
      constructor
      · intro h
        obtain ⟨x, y, c, h⟩ := h
        exact ⟨a, x, y, c, rfl, h⟩
      · intro h
        obtain ⟨a', x, y, c, hkey, h⟩ := h
        obtain rfl : a = a' := by simpa using hkey
        exact ⟨x, y, c, h⟩
    · rw [if_neg (by simp)]
      exact Prints.nil (by simp)
  case once =>
    rintro k - k' - line ⟨a, x, y, c, rfl, -, rfl⟩ ⟨a', x', y', c', rfl, -, h⟩
    rw [(singleLine_inj h).1]
  case same =>
    intro line
    constructor
    · intro h
      obtain ⟨k, -, a, x, y, c, -, h⟩ := h
      exact ⟨a, x, y, c, h⟩
    · intro h
      obtain ⟨a, x, y, c, hviol, hline⟩ := h
      refine ⟨[a], ?_, a, x, y, c, rfl, hviol, hline⟩
      rw [Iteration.mem_list, Index.mem_keys_iff, hloc.single]
      exact ⟨c, hviol.mem⟩

end Print

theorem run_prints (ord : PrintOrder) (bs : List Block) (s : Int) (t : ℚ) :
    Prints (run ord bs s t) fun line => ∃ a x y c, (orderedDatabase bs).Violation s t a x y c ∧
      line = singleLine (orderedDatabase bs) a x y c := by
  rw [run, actions_eq]
  exact printBug_prints (records_location bs)

-- ---------------------------------------------------------------------------
-- Merged lines taken apart
-- ---------------------------------------------------------------------------

/-- The lines a line stands for: a combined line for the single lines of its pairs. -/
def split : BugLine → List BugLine
  | .single function caller pair => [.single function caller pair]
  | .combined function caller pair pair2 =>
    [.single function caller pair, .single function caller pair2]

section Split

variable {D : OrderedDatabase String String} {s : Int} {t : ℚ} {out : List BugLine}

theorem mem_split_combinedLine {a x y c : String} {line : BugLine} :
    line ∈ split (combinedLine D a x y c) ↔
      line = singleLine D a x y c ∨ line = singleLine D a y x c := by
  simp [split, combinedLine, singleLine]

/-- The single line of a violation comes from its own line, or from the combined
line of one of its orders. -/
theorem origin (h : Reports D s t out) {a x y c : String} {line : BugLine} (hline : line ∈ out)
    (hmem : singleLine D a x y c ∈ split line) :
    (¬ D.BothViolated s t a x y c ∧ line = singleLine D a x y c) ∨
      (D.BothViolated s t a x y c ∧
        (line = combinedLine D a x y c ∨ line = combinedLine D a y x c)) := by
  obtain ⟨a', x', y', c', -, ⟨hn, rfl⟩ | ⟨hboth, rfl⟩⟩ := h.only line hline
  · obtain ⟨rfl, ⟨rfl, rfl⟩, rfl⟩ := singleLine_inj (List.mem_singleton.mp hmem)
    exact Or.inl ⟨hn, rfl⟩
  · rcases mem_split_combinedLine.mp hmem with heq | heq
    · obtain ⟨rfl, ⟨rfl, rfl⟩, rfl⟩ := singleLine_inj heq
      exact Or.inr ⟨hboth, Or.inl rfl⟩
    · obtain ⟨rfl, ⟨rfl, rfl⟩, rfl⟩ := singleLine_inj heq
      exact Or.inr ⟨hboth.symm, Or.inr rfl⟩

/-- Taken apart, the lines are the single lines of the violations. -/
theorem mem_flatMap_split (h : Reports D s t out) {line : BugLine} :
    line ∈ out.flatMap split ↔
      ∃ a x y c, D.Violation s t a x y c ∧ line = singleLine D a x y c := by
  rw [List.mem_flatMap]
  constructor
  · intro hex
    obtain ⟨line', hline', hmem⟩ := hex
    obtain ⟨a, x, y, c, hviol, ⟨-, rfl⟩ | ⟨hboth, rfl⟩⟩ := h.only line' hline'
    · exact ⟨a, x, y, c, hviol, List.mem_singleton.mp hmem⟩
    · rcases mem_split_combinedLine.mp hmem with rfl | rfl
      · exact ⟨a, x, y, c, hviol, rfl⟩
      · exact ⟨a, y, x, c, hboth.back, rfl⟩
  · intro hex
    obtain ⟨a, x, y, c, hviol, rfl⟩ := hex
    by_cases hboth : D.BothViolated s t a x y c
    · -- one of the two combined lines is there, and each has both single lines
      by_cases hin : combinedLine D a x y c ∈ out
      · exact ⟨_, hin, mem_split_combinedLine.mpr (Or.inl rfl)⟩
      · have hin' := (h.combined a y x c hboth.symm).mpr hin
        exact ⟨_, hin', mem_split_combinedLine.mpr (Or.inr rfl)⟩
    · exact ⟨_, h.single a x y c hviol hboth, List.mem_singleton_self _⟩

/-- No single line comes twice. -/
theorem nodup_flatMap_split (h : Reports D s t out) : (out.flatMap split).Nodup := by
  refine nodup_flatMap_of_disjoint h.nodup (fun line hline => ?_) ?_
  · obtain ⟨a, x, y, c, -, ⟨-, rfl⟩ | ⟨hboth, rfl⟩⟩ := h.only line hline
    · exact List.nodup_singleton _
    · have hne : singleLine D a x y c ≠ singleLine D a y x c := fun heq =>
        hboth.ne (singleLine_inj heq).2.1.1
      exact List.nodup_cons.mpr
        ⟨fun hmem => hne (List.mem_singleton.mp hmem), List.nodup_singleton _⟩
  · intro line hline line' hline' z hz hz'
    obtain ⟨a, x, y, c, -, rfl⟩ := (mem_flatMap_split h).mp (List.mem_flatMap.mpr ⟨_, hline, hz⟩)
    -- both come from the line of the same violation; of the two combined lines one is there
    rcases origin h hline hz with ⟨hn, rfl⟩ | ⟨hboth, rfl | rfl⟩
    all_goals rcases origin h hline' hz' with ⟨hn', rfl⟩ | ⟨hboth', rfl | rfl⟩
    · rfl
    · exact absurd hboth' hn
    · exact absurd hboth' hn
    · exact absurd hboth hn'
    · rfl
    · exact absurd hline' ((h.combined a x y c hboth).mp hline)
    · exact absurd hboth hn'
    · exact absurd hline ((h.combined a x y c hboth).mp hline')
    · rfl

/-- Taken apart, they are the lines of the earlier version, in some order. -/
theorem flatMap_split_perm {ord : PrintOrder} {bs : List Block} {outEarlier : List BugLine}
    (h : Reports (orderedDatabase bs) s t out) (hrun : run ord bs s t = .ok outEarlier) :
    (out.flatMap split).Perm outEarlier := by
  obtain ⟨outEarlier', hrun', hnd, hmem⟩ := run_prints ord bs s t
  obtain rfl := Except.ok.inj (hrun.symm.trans hrun')
  rw [List.perm_ext_iff_of_nodup (nodup_flatMap_split h) hnd]
  intro line
  rw [mem_flatMap_split h, hmem]

end Split

/-- **Merging loses and invents nothing.** Let both versions run on the same blocks with
the same thresholds, in whatever orders of their loops. Taking the combined lines of
the later one apart gives, up to the order, the lines of the earlier one. -/
theorem run_split (ord ordEarlier : PrintOrder) (bs : List Block) (s : Int) (t : ℚ)
    (hcomma : CommaFree bs) :
    ∃ out outEarlier, PartD.run ord bs s t = .ok out ∧
      run ordEarlier bs s t = .ok outEarlier ∧ (out.flatMap split).Perm outEarlier := by
  obtain ⟨out, hrun, hreports⟩ := reports_run ord s t hcomma
  obtain ⟨outEarlier, hrun', -⟩ := run_prints ordEarlier bs s t
  exact ⟨out, outEarlier, hrun, hrun', flatMap_split_perm hreports hrun'⟩

/-- The combined line of `eitherWay` stands for two lines of the earlier version. -/
theorem run_split_eitherWay :
    ∃ out outEarlier, PartD.run default eitherWay 3 (2 / 5) = .ok out ∧
      run default eitherWay 3 (2 / 5) = .ok outEarlier ∧ (out.flatMap split).Perm outEarlier :=
  run_split default default eitherWay 3 (2 / 5) (by decide +kernel)

end Pipair.PartD.Earlier
