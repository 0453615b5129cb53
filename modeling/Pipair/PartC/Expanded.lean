import Pipair.PartC.Leaves
import Pipair.PartC.SetExpand

/-!
# Part C, what the expanding variants print

Both variants that expand the callers hand a map to the same `printBug`. Here the
maps are read as databases of their own, without the recursion that filled them:

* `Group63/pi/partC/pipair_java2.java` finds a function at the callers whose call
  tree has it as a leaf (`Expand.main_prints_leaves`), for every text and every level but
  the largest `int`;
* `proj/qi/partC/pipair_C1.java` finds it at the callers within two calls, and besides
  where part A finds it (`SetExpand.main_prints_near`). The second matters when a caller
  heads two blocks: only the last of them is expanded.

The callees that are expanded are those of the last block of each caller.
-/

namespace Pipair

open Mining

-- ---------------------------------------------------------------------------
-- Maps as databases
-- ---------------------------------------------------------------------------

/-- A map with each caller under the pairs of its functions records who has which. -/
theorem records_ofRelation {location : Location} {callers : Finset String}
    {extended : String → Finset String} {R : String → String → Prop} [∀ c a, Decidable (R c a)]
    (hR : ∀ c ∈ callers, ∀ a, a ∈ extended c ↔ R c a)
    (h : ∀ k c, c ∈ location.get k ↔ c ∈ callers ∧ PartA.PairKey (extended c) k) :
    Records location (Database.ofRelation callers R) where
  keys k hk := by
    obtain ⟨c, hc⟩ := Index.mem_keys_iff.mp hk
    obtain ⟨-, a, -, b, -, hk⟩ := (h k c).mp hc
    exact ⟨a, b, hk⟩
  single a := by
    ext c
    rw [h, ← Finset.pair_eq_singleton, PartA.pairKey_pair, and_self, Database.ofRelation,
      Finset.mem_filter]
    exact and_congr_right fun hc => hR c hc a
  pair a b _ := by
    ext c
    rw [h, PartA.pairKey_pair, Database.ofRelation, Finset.mem_filter]
    exact and_congr_right fun hc => and_congr (hR c hc a) (hR c hc b)

/-- Two maps in one record two databases. -/
theorem Records.union {location location₁ location₂ : Location} {D E : Database String String}
    (h₁ : Records location₁ D) (h₂ : Records location₂ E)
    (h : ∀ k, location.get k = location₁.get k ∪ location₂.get k) :
    Records location (D.union E) where
  keys k hk := by
    rw [Index.mem_keys_iff, h, Finset.union_nonempty] at hk
    rcases hk with hk | hk
    · exact h₁.keys k (Index.mem_keys_iff.mpr hk)
    · exact h₂.keys k (Index.mem_keys_iff.mpr hk)
  single a := by rw [h, h₁.single, h₂.single, Database.union]
  pair a b hab := by rw [h, h₁.pair a b hab, h₂.pair a b hab, Database.union]

end Pipair

namespace Pipair.PartC

open Mining

theorem nonemptyCallees_lastCallees (bs : List Block) :
    Expand.NonemptyCallees (lastCallees bs) := by
  intro f s hs
  obtain ⟨pre, b, post, -, -, hne, -, rfl⟩ := get_lastCallees_iff.mp hs
  exact (List.toFinset_nonempty_iff _).mpr hne

-- ---------------------------------------------------------------------------
-- The leaves
-- ---------------------------------------------------------------------------

namespace Expand

/-- The unfolding of the calls of `c` ends at `a`: `a` is called by a chain of exactly `e + 1`
calls, or by a shorter one, and has no callees. With a negative level nothing is unfolded. -/
def EndsAt (cc : CallerCallee) (e : Int) (c a : String) : Prop :=
  0 ≤ e ∧ (Walk (Calls cc) (e.toNat + 1) c a ∨
    ∃ k : Nat, 1 ≤ k ∧ (k : Int) ≤ e ∧ Walk (Calls cc) k c a ∧ a ∉ cc.keySet)

open Classical in
/-- The functions at which the unfoldings of the callers end. -/
noncomputable def leafDatabase (cc : CallerCallee) (e : Int) : Database String String :=
  Database.ofRelation cc.keySet (EndsAt cc e)

theorem scanLoop_callerCallee (text : List Char) :
    (scanLoop actions text init).callerCallee = lastCallees (blocks text) := by
  rw [scanLoop_eq_blocks, foldl_callerCallee]

theorem mem_expanded_endsAt {cc : CallerCallee} (hne : NonemptyCallees cc) (ord : ExpandOrder)
    (e : Int) {c : String} (hc : c ∈ cc.keySet) (a : String) :
    a ∈ expanded cc ord e c ↔ EndsAt cc e c a := by
  by_cases he : 0 ≤ e
  · rw [mem_expanded_iff hne he hc, EndsAt, and_iff_right he]
  · -- the recursion stops at once
    rw [expanded, expansion, if_pos (by omega), EndsAt]
    simp [he]

/-- The map that is built for the callees of the last blocks. -/
theorem exists_initInterLocation_endsAt (bs : List Block) (ord : ExpandOrder) {e : Int}
    (he : e < maxInt) :
    ∃ location, initInterLocation (lastCallees bs) ord e = .ok location ∧
      ∀ k c, c ∈ location.get k ↔ c ∈ (lastCallees bs).keySet ∧
        PartA.PairKey (expanded (lastCallees bs) ord e c) k :=
  exists_initInterLocation fun _ _ => extend_eq he

/--
**The expanding variant, whole run.** For every text, whatever headers come twice in it, for
every `expandLevel` but the largest `int`, all thresholds and orders of the loops, the run
succeeds and prints the violations of the database that places a function at the callers whose
unfolding ends at it, each once, and no other lines.
-/
theorem main_prints_leaves (ord : PrintOrder) (expand : ExpandOrder) {e : Int} (he : e < maxInt)
    (text : List Char) (s : Int) (t : ℚ) :
    Prints (main ord expand e text s t) fun line =>
      ∃ a b c, (leafDatabase (lastCallees (blocks text)) e).Violation s t a b c ∧
        line = bugLine (leafDatabase (lastCallees (blocks text)) e) a b c := by
  obtain ⟨location, hrun, hmem⟩ := exists_initInterLocation_endsAt (blocks text) expand he
  have hrecords : Records location (leafDatabase (lastCallees (blocks text)) e) := by
    classical
    exact records_ofRelation
      (fun c hc a => mem_expanded_endsAt (nonemptyCallees_lastCallees _) expand e hc a) hmem
  rw [main, scanLoop_callerCallee, hrun, ok_bind]
  exact printBugWith_prints_all hrecords

/-- Whatever the level, a run that succeeds prints the violations of some database of callers
and of functions that are called. -/
theorem prints_of_main_ok {ord : PrintOrder} {expand : ExpandOrder} {e s : Int} {text : List Char}
    {t : ℚ} {out : List BugLine} (h : main ord expand e text s t = .ok out) :
    ∃ D : Database String String,
      (∀ a c, c ∈ D.single a →
        c ∈ (lastCallees (blocks text)).keySet ∧ ∃ f, Calls (lastCallees (blocks text)) f a) ∧
      Prints (main ord expand e text s t) fun line =>
        ∃ a b c, D.Violation s t a b c ∧ line = bugLine D a b c := by
  rw [main, scanLoop_callerCallee] at h ⊢
  obtain ⟨location, hrun, -⟩ := Loop.exists_of_bind_ok h
  obtain ⟨extended, hext, hmem⟩ := extend_ok_of_initInterLocation hrun
  refine ⟨Database.ofRelation (lastCallees (blocks text)).keySet fun c a => a ∈ extended c,
    fun a c hc => ?_, ?_⟩
  · obtain ⟨hc, ha⟩ := Finset.mem_filter.mp hc
    exact ⟨hc, calls_of_mem_extend (hext c hc) ha⟩
  · have hrecords := records_ofRelation (R := fun c a => a ∈ extended c)
      (fun _ _ _ => Iff.rfl) hmem
    rw [hrun, ok_bind]
    exact printBugWith_prints_all hrecords

end Expand

-- ---------------------------------------------------------------------------
-- Two calls
-- ---------------------------------------------------------------------------

namespace SetExpand

/-- Who calls what by one or two of the calls stored. -/
def Near (cc : CallerCallee) (c a : String) : Prop := ∃ k, 1 ≤ k ∧ k ≤ 2 ∧ Walk (Calls cc) k c a

open Classical in
/-- The functions within two calls of the callers. -/
noncomputable def nearDatabase (cc : CallerCallee) : Database String String :=
  Database.ofRelation cc.keySet (Near cc)

/--
**The variant that expands into a set, whole run.** For every text, whatever headers come twice
in it, all thresholds and orders of the loops, the run succeeds and prints the violations of the
database that places functions and pairs where part A does, and besides at the callers that
reach them within two calls, each once, and no other lines.
-/
theorem main_prints_near (ord : PrintOrder) (expand : Expand.ExpandOrder) (text : List Char)
    (s : Int) (t : ℚ) :
    Prints (main ord expand text s t) fun line =>
      ∃ a b c, ((siteDatabase (blocks text)).union
          (nearDatabase (lastCallees (blocks text)))).Violation s t a b c ∧
        line = bugLine ((siteDatabase (blocks text)).union
          (nearDatabase (lastCallees (blocks text)))) a b c := by
  have hst : scanLoop actions text init = stateOf (blocks text) := scanLoop_eq_blocks ..
  obtain ⟨location, hrun, hmem⟩ := exists_initInterLocation (lastCallees (blocks text)) expand
    (stateOf (blocks text)).location
  obtain ⟨location₂, -, hmem₂⟩ :=
    exists_initInterLocation (lastCallees (blocks text)) expand Index.empty
  have hkey : ∀ k c, c ∈ location₂.get k ↔ c ∈ (lastCallees (blocks text)).keySet ∧
      PartA.PairKey (extend (lastCallees (blocks text)) expand c) k := by
    intro k c
    rw [hmem₂, Index.get_empty]
    simp only [Finset.notMem_empty, false_or]
    refine (and_iff_right_of_imp ?_).symm
    rintro ⟨x, hx, -⟩
    exact mem_keySet_of_mem_extend hx
  have hnear : Records location₂ (nearDatabase (lastCallees (blocks text))) := by
    classical
    exact records_ofRelation (fun c _ a => mem_extend_iff) hkey
  have hrecords : Records location ((siteDatabase (blocks text)).union
      (nearDatabase (lastCallees (blocks text)))) := by
    refine (records_stateOf (blocks text)).union hnear fun k => ?_
    ext c
    rw [hmem, Finset.mem_union, hmem₂, Index.get_empty]
    simp only [Finset.notMem_empty, false_or]
  rw [main, hst, stateOf_callerCallee, hrun, ok_bind]
  exact printBugWith_prints_all hrecords

end SetExpand

end Pipair.PartC
