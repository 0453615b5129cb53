import Pipair.PartC.ListExpand
import Pipair.PartC.Missed

/-!
# Part C, one level

`expandLevel` is 1 unless the command line says otherwise, and then the search can be
said in one line: a bug of `a` for `{a, b}` in `c` is suppressed when some callee stored for
`c`, other than `a`, calls `b` and is not presented to itself before `b` (`run_prints_one`).
The levels do not matter but for the last condition.

The variant that expands the callers into sets was written for the same purpose. It
finds the pair at `c` whenever the search suppresses the bug; the other way round there
are two more cases, in which `a` itself calls `b`, and in which the callee that calls
`b` is presented to itself first (`main_against_search`).
-/

namespace Pipair.PartC

open Mining

section LevelOne

variable {cc : CallerCallee} {search : SearchOrder} {a b c n : String} {nearBy : Finset String}

/-- What suppresses a bug within one call: `nearBy` are the callees stored for the caller. -/
def NearFirst (cc : CallerCallee) (search : SearchOrder) (a b : String)
    (nearBy : Finset String) : Prop :=
  ∃ n ∈ nearBy, n ≠ a ∧ n ≠ b ∧ CallsFirst cc search n b

theorem nearInTime_one_iff :
    NearInTime cc search 1 a b nearBy ↔ NearFirst cc search a b nearBy := by
  simp only [NearInTime, inTime_one_iff, NearFirst]

/--
**The default level.** For every call graph, all thresholds and orders of the loops, part C
with `expandLevel = 1` prints the violations of part A for which none of the callees stored for
the caller, those of its last node with callees, other than the two functions of the pair,
calls the missing partner before it is presented to itself; each once, and no other lines.
-/
theorem run_prints_one (ord : PrintOrder) (search : SearchOrder) (bs : List Block) (s : Int)
    (t : ℚ) :
    Prints (run ord search 1 bs s t) fun line =>
      ∃ a b c nearBy, (siteDatabase bs).Violation s t a b c ∧
        (lastCallees bs).get c = some nearBy ∧
        ¬ NearFirst (lastCallees bs) search a b nearBy ∧
        line = bugLine (siteDatabase bs) a b c := by
  obtain ⟨out, hrun, hnd, -⟩ := run_prints ord search 1 bs s t
  refine ⟨out, hrun, hnd, fun line => ?_⟩
  constructor
  · intro hline
    obtain ⟨a, b, c, nearBy, hviol, hnear, rfl⟩ := exists_violation hrun hline
    rw [bugLine_mem_iff hrun hviol hnear, nearInTime_one_iff] at hline
    rw [stateOf_callerCallee] at hnear hline
    exact ⟨a, b, c, nearBy, hviol, hnear, hline, rfl⟩
  · intro hline
    obtain ⟨a, b, c, nearBy, hviol, hnear, hn, rfl⟩ := hline
    rw [← stateOf_callerCallee] at hnear hn
    rwa [bugLine_mem_iff hrun hviol hnear, nearInTime_one_iff]

-- ---------------------------------------------------------------------------
-- Against the expansion into sets
-- ---------------------------------------------------------------------------

/-- The two functions of a violation are not both in the block whose callees are stored. -/
theorem not_both_stored {bs : List Block} {s : Int} {t : ℚ}
    (hviol : (siteDatabase bs).Violation s t a b c)
    (hnear : (lastCallees bs).get c = some nearBy) (ha : a ∈ nearBy) : b ∉ nearBy := by
  intro hb
  obtain ⟨pre, blk, post, rfl, rfl, -, -, rfl⟩ := get_lastCallees_iff.mp hnear
  refine hviol.notMem (mem_sites.mpr ⟨blk, by simp, rfl, ?_, ?_⟩)
  · exact List.mem_toFinset.mp ha
  · exact List.mem_toFinset.mp hb

/-- A partner within two calls that is not called is called by a callee. -/
theorem near_iff_exists_callee (hnear : cc.get c = some nearBy) (hb : b ∉ nearBy) :
    SetExpand.Near cc c b ↔ ∃ n ∈ nearBy, Calls cc n b := by
  have hcall : ∀ x, Calls cc c x ↔ x ∈ nearBy := fun x => by simp [Calls, hnear]
  constructor
  · rintro ⟨k, h1, h2, hw⟩
    obtain rfl | rfl : k = 1 ∨ k = 2 := by omega
    · obtain ⟨x, hx, h⟩ := Walk.succ_iff.mp hw
      obtain rfl := Walk.zero_iff.mp hx
      exact absurd ((hcall b).mp h) hb
    · obtain ⟨x, hx, hw⟩ := Walk.succ_iff_head.mp hw
      obtain ⟨y, hy, h⟩ := Walk.succ_iff.mp hw
      obtain rfl := Walk.zero_iff.mp hy
      exact ⟨x, (hcall x).mp hx, h⟩
  · rintro ⟨n, hn, h⟩
    exact ⟨2, by omega, le_rfl, Walk.head ((hcall n).mpr hn) (Walk.single h)⟩

theorem nearDatabase_pair :
    c ∈ (SetExpand.nearDatabase cc).pair a b ↔
      c ∈ cc.keySet ∧ SetExpand.Near cc c a ∧ SetExpand.Near cc c b := by
  classical
  exact Finset.mem_filter

end LevelOne

/--
**The search against the expansion into sets.** For every text, all orders of the loops and all
thresholds, take a violation of `a` for `{a, b}` in `c` where the callees stored for `c` have
`a` (with no repeated headers they always do).

1. When the search with one level leaves it out, the variant that expands into sets finds the
   pair at `c`, so it prints no such line under any thresholds.
2. When that variant finds the pair at `c` although the search prints the line, then `a` itself
   calls `b`, or another callee stored for `c` calls `b` and is presented to itself before.
-/
theorem main_against_search (ord ordS : PrintOrder) (search : SearchOrder)
    (expand : Expand.ExpandOrder) (text : List Char) (s s' : Int) (t t' : ℚ) :
    ∃ out locS outS, main ord search 1 text s t = .ok out ∧
      SetExpand.initInterLocation (scanLoop actions text init).callerCallee expand
        (scanLoop actions text init).location = .ok locS ∧
      SetExpand.main ordS expand text s' t' = .ok outS ∧
      ∀ a b c nearBy, (siteDatabase (blocks text)).Violation s t a b c →
        (lastCallees (blocks text)).get c = some nearBy → a ∈ nearBy →
        (bugLine (siteDatabase (blocks text)) a b c ∉ out →
          c ∈ locS.get {a, b} ∧
            ∀ line ∈ outS, line.function = a → line.pair = lexicographic a b →
              line.caller ≠ c) ∧
        (bugLine (siteDatabase (blocks text)) a b c ∈ out → c ∈ locS.get {a, b} →
          Calls (lastCallees (blocks text)) a b ∨
            ∃ n ∈ nearBy, n ≠ a ∧ Calls (lastCallees (blocks text)) n b ∧
              n ∈ (calleesInOrder (lastCallees (blocks text)) search n).takeWhile (· ≠ b)) := by
  obtain ⟨out, hout, -⟩ := run_prints ord search 1 (blocks text) s t
  obtain ⟨locS, hlocS, hmemS⟩ := ListExpand.exists_location_near (blocks text) expand
  obtain ⟨outS, houtS, -, hlinesS⟩ := SetExpand.main_prints_near ordS expand text s' t'
  have hst : scanLoop actions text init = stateOf (blocks text) := scanLoop_eq_blocks ..
  rw [main_eq_run, hst, stateOf_callerCallee]
  refine ⟨out, locS, outS, hout, hlocS, houtS, fun a b c nearBy hviol hnear ha => ?_⟩
  have hb := not_both_stored hviol hnear ha
  have hnearA : SetExpand.Near (lastCallees (blocks text)) c a :=
    ⟨1, le_rfl, by omega, Walk.single ⟨nearBy, hnear, ha⟩⟩
  have hlocS' : c ∈ locS.get {a, b} ↔ ∃ n ∈ nearBy, Calls (lastCallees (blocks text)) n b := by
    have hnot : c ∉ callersOfBoth (blocks text) a b := hviol.notMem
    rw [hmemS, or_iff_right hnot, and_iff_right hnearA, near_iff_exists_callee hnear hb]
  have hprinted : bugLine (siteDatabase (blocks text)) a b c ∈ out ↔
      ¬ NearFirst (lastCallees (blocks text)) search a b nearBy := by
    rw [← stateOf_callerCallee] at hnear
    rw [bugLine_mem_iff hout hviol hnear, nearInTime_one_iff, stateOf_callerCallee]
  constructor
  · intro hnot
    rw [hprinted, not_not] at hnot
    obtain ⟨n, hn, -, -, hcall, -⟩ := hnot
    refine ⟨hlocS'.mpr ⟨n, hn, hcall⟩, ?_⟩
    rintro line hline rfl hpair rfl
    -- the line would report a violation of a pair that is found there
    obtain ⟨a', b', c', hviol', rfl⟩ := (hlinesS line).mp hline
    obtain rfl := lexicographic_inj hpair
    refine hviol'.notMem (Finset.mem_union_right _ ?_)
    rw [nearDatabase_pair]
    exact ⟨HashMap.mem_keySet_of_get hnear, hnearA,
      (near_iff_exists_callee hnear hb).mpr ⟨n, hn, hcall⟩⟩
  · intro hout' hmem
    rw [hprinted] at hout'
    obtain ⟨n, hn, hcall⟩ := hlocS'.mp hmem
    by_cases hna : n = a
    · exact Or.inl (hna ▸ hcall)
    · refine Or.inr ⟨n, hn, hna, hcall, ?_⟩
      by_contra hself
      exact hout' ⟨n, hn, hna, fun hnb => hb (hnb ▸ hn), hcall, hself⟩

end Pipair.PartC
