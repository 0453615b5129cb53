import Pipair.PartD.Run

/-!
# Part D, what is printed

The loops of `printBug` come by the violations of the ordered rules one by one
(`candidates`), and each is treated by `reportOnce`: a violation of both orders
is reported in one line with the pair and its reverse, unless the reverse was
there first; any other violation has a line of its own.

`visit` compares rendered strings. Two pairs are rendered alike only if they are
the same, provided the names contain no comma (`rendered_inj`).

`run_prints_orders` says what a whole run prints.
-/

namespace Pipair.PartD

open Mining

-- ---------------------------------------------------------------------------
-- Rendered pairs
-- ---------------------------------------------------------------------------

theorem comma_append_inj {u v l m : List Char} (hu : ',' ∉ u) (hv : ',' ∉ v)
    (h : u ++ ',' :: l = v ++ ',' :: m) : u = v ∧ l = m := by
  induction u generalizing v with
  | nil =>
    cases v with
    | nil => exact ⟨rfl, (List.cons.inj h).2⟩
    | cons c v =>
      obtain ⟨rfl, -⟩ := List.cons.inj h
      exact absurd (List.mem_cons_self ..) hv
  | cons c u ih =>
    cases v with
    | nil =>
      obtain ⟨rfl, -⟩ := List.cons.inj h
      exact absurd (List.mem_cons_self ..) hu
    | cons d v =>
      obtain ⟨rfl, htail⟩ := List.cons.inj h
      obtain ⟨rfl, rfl⟩ := ih (fun h => hu (List.mem_cons_of_mem _ h))
        (fun h => hv (List.mem_cons_of_mem _ h)) htail
      exact ⟨rfl, rfl⟩

/-- The first comma of a rendered pair is the one between the names. -/
theorem rendered_inj {x y x' y' : String} (hx : ',' ∉ x.toList) (hx' : ',' ∉ x'.toList)
    (h : rendered x y = rendered x' y') : x = x' ∧ y = y' := by
  have hlist := congrArg String.toList h
  simp only [rendered, String.toList_append, List.append_assoc] at hlist
  -- behind the opening bracket stand the first name, a comma, and the rest
  have hmiddle : x.toList ++ ',' :: (' ' :: (y.toList ++ [')'])) =
      x'.toList ++ ',' :: (' ' :: (y'.toList ++ [')'])) := (List.cons.inj hlist).2
  obtain ⟨h1, h2⟩ := comma_append_inj hx hx' hmiddle
  have h3 := (List.append_inj' (List.cons.inj h2).2 rfl).1
  exact ⟨String.toList_injective h1, String.toList_injective h3⟩

-- ---------------------------------------------------------------------------
-- Candidates
-- ---------------------------------------------------------------------------

/-- A function, an ordered pair with it, and a caller. -/
structure Candidate where
  function : String
  first : String
  second : String
  caller : String
deriving DecidableEq

namespace Candidate

/-- The candidate with the pair in reverse order. -/
def mirror (t : Candidate) : Candidate := { t with first := t.second, second := t.first }

/-- What is noted in `visit`. -/
def key (t : Candidate) : List String := [t.function, rendered t.first t.second, t.caller]

end Candidate

section Lines

variable (D : OrderedDatabase String String) (s : Int) (t : ℚ)

def reported (a x y : String) : Reported :=
  ⟨(x, y), (D.pair x y).card, Mining.confidence (D.pair x y) (D.single a)⟩

/-- The line for one order of a pair. -/
def singleLine (a x y c : String) : BugLine := .single a c (reported D a x y)

/-- The line for a pair and its reverse. -/
def combinedLine (a x y c : String) : BugLine :=
  .combined a c (reported D a x y) (reported D a y x)

/-- The candidate is a violation, and so is its mirror image. -/
abbrev Paired (u : Candidate) : Prop := D.BothViolated s t u.function u.first u.second u.caller

def lineOf (u : Candidate) : BugLine :=
  if Paired D s t u then combinedLine D u.function u.first u.second u.caller
  else singleLine D u.function u.first u.second u.caller

end Lines

section Print

variable {D : OrderedDatabase String String} {s : Int} {t : ℚ} {location : Location}

theorem lineOf_injective : Function.Injective (lineOf D s t) := by
  rintro ⟨a, x, y, c⟩ ⟨a', x', y', c'⟩ h
  simp only [lineOf, combinedLine, singleLine, reported] at h
  split at h <;> split at h <;> simp_all

/-- **What is done with one caller.** -/
theorem printCaller_eq (hloc : Records location D) {a x y c : String}
    (h : D.Violation s t a x y c) (visit : List (List String)) :
    printCaller location s t [a] [x, y] a (D.single a).card (D.pair x y).card
        (Mining.confidence (D.pair x y) (D.single a)) c visit =
      .ok (reportOnce Candidate.mirror Candidate.key (Paired D s t) (lineOf D s t) ⟨a, x, y, c⟩
        visit) := by
  have hsingle : location.lookup [a] = some (D.single a) := by
    rw [Index.lookup_eq_some_iff, hloc.single]
    exact ⟨rfl, ⟨c, h.mem⟩⟩
  have hother : ¬ D.BothViolated s t a x y c →
      (visit, [BugLine.single a c ⟨(x, y), (D.pair x y).card,
        Mining.confidence (D.pair x y) (D.single a)⟩]) =
      reportOnce Candidate.mirror Candidate.key (Paired D s t) (lineOf D s t) ⟨a, x, y, c⟩
        visit := fun hn => by
    rw [reportOnce, if_neg hn, lineOf, if_neg hn]
    rfl
  simp only [printCaller, element_zero, element_one, ok_bind]
  -- does anybody call the functions in reverse order?
  cases hrev : location.lookup [y, x] with
  | none =>
    rw [Index.lookup_eq_none_iff, hloc.pair] at hrev
    rw [← hother fun hb => by simpa [hrev] using hb.back.rule.occurs]
    rfl
  | some rev =>
    rw [Index.lookup_eq_some_iff, hloc.pair] at hrev
    obtain ⟨rfl, hne⟩ := hrev
    dsimp only
    -- a function with itself has no reverse
    by_cases hyx : y = x
    · rw [if_neg fun hc => hc.2 hyx, ← hother fun hb => hb.ne hyx.symm]
      rfl
    rw [if_pos ⟨hne, hyx⟩]
    split
    · next hq =>
      rw [hsingle, deref_some, ok_bind]
      have hrule : D.Rule s t a y x :=
        ⟨h.rule.member.symm, hne, ⟨hq.1, hq.2.1, hq.2.2.1, hq.2.2.2⟩⟩
      by_cases hc : c ∈ D.pair y x
      · rw [if_neg (by simp [hc]), ← hother fun hb => hb.back.notMem hc]
        rfl
      · have hboth : D.BothViolated s t a x y c := ⟨Ne.symm hyx, h, ⟨hrule, h.mem, hc⟩⟩
        rw [if_pos (by simp [h.mem, hc]), reportOnce, if_pos hboth, lineOf, if_pos hboth]
        by_cases hv : [a, rendered y x, c] ∈ visit
        · rw [if_pos hv, if_pos (show (Candidate.mk a x y c).mirror.key ∈ visit from hv)]
          rfl
        · rw [if_neg hv, if_neg (show (Candidate.mk a x y c).mirror.key ∉ visit from hv)]
          rfl
    · next hq =>
      rw [← hother fun hb => hq ⟨hb.back.rule.qualifies.support_single,
        hb.back.rule.qualifies.support_pair, hb.back.rule.qualifies.confidence_lt,
        hb.back.rule.qualifies.confidence_ge⟩]
      rfl

-- ---------------------------------------------------------------------------
-- The loops
-- ---------------------------------------------------------------------------

section Candidates

variable (D : OrderedDatabase String String) (s : Int) (t : ℚ) (ord : PrintOrder)
  (location : Location)

/-- The candidates of one pair, in the order of the loop over `locationTemp`. -/
def callerCandidates (a x y : String) : List Candidate :=
  ((ord.callers [a] [x, y]).list (D.single a \ D.pair x y)).flatMap fun c => [⟨a, x, y, c⟩]

/-- The candidates of one key with two functions. -/
def pairCandidates (a : String) : List String → List Candidate
  | [x, y] =>
    if (a = x ∨ a = y) ∧ Qualifies s t (D.single a) (D.pair x y) then
      callerCandidates D ord a x y
    else []
  | _ => []

/-- The candidates of one key with one function. -/
def singleCandidates : List String → List Candidate
  | [a] => ((ord.pipairKeys [a]).list location.keys).flatMap (pairCandidates D s t ord a)
  | _ => []

/-- All candidates, in the order of the loops. -/
def candidates : List Candidate :=
  (ord.singleKeys.list location.keys).flatMap (singleCandidates D s t ord location)

end Candidates

variable {ord : PrintOrder}

theorem mem_callerCandidates {a x y : String} {u : Candidate} :
    u ∈ callerCandidates D ord a x y ↔
      u.function = a ∧ u.first = x ∧ u.second = y ∧ u.caller ∈ D.single a ∧
        u.caller ∉ D.pair x y := by
  simp only [callerCandidates, List.mem_flatMap, List.mem_singleton, Iteration.mem_list,
    Finset.mem_sdiff]
  constructor
  · intro h
    obtain ⟨c, ⟨hc, hn⟩, rfl⟩ := h
    exact ⟨rfl, rfl, rfl, hc, hn⟩
  · intro h
    obtain ⟨rfl, rfl, rfl, hc, hn⟩ := h
    exact ⟨u.caller, ⟨hc, hn⟩, rfl⟩

theorem mem_pairCandidates (hloc : Records location D) {a : String} {k : List String}
    (hk : k ∈ location.keys) {u : Candidate} :
    u ∈ pairCandidates D s t ord a k ↔
      u.function = a ∧ k = [u.first, u.second] ∧ D.Violation s t a u.first u.second u.caller := by
  rcases hloc.keys k hk with ⟨z, rfl⟩ | ⟨x, y, rfl⟩
  · simp [pairCandidates]
  · have hne : (D.pair x y).Nonempty := by
      rw [← hloc.pair]
      exact Index.mem_keys_iff.mp hk
    rw [pairCandidates]
    split
    · next hq =>
      rw [mem_callerCandidates]
      constructor
      · intro h
        obtain ⟨ha, rfl, rfl, hc, hn⟩ := h
        exact ⟨ha, rfl, ⟨hq.1, hne, hq.2⟩, hc, hn⟩
      · intro h
        obtain ⟨ha, hkey, hviol⟩ := h
        obtain ⟨rfl, rfl⟩ : x = u.first ∧ y = u.second := by simpa using hkey
        exact ⟨ha, rfl, rfl, hviol.mem, hviol.notMem⟩
    · next hq =>
      refine iff_of_false List.not_mem_nil ?_
      intro h
      obtain ⟨ha, hkey, hviol⟩ := h
      obtain ⟨rfl, rfl⟩ : x = u.first ∧ y = u.second := by simpa using hkey
      exact hq ⟨hviol.rule.member, hviol.rule.qualifies⟩

theorem mem_singleCandidates (hloc : Records location D) {k : List String} {u : Candidate} :
    u ∈ singleCandidates D s t ord location k ↔
      k = [u.function] ∧ D.Violation s t u.function u.first u.second u.caller := by
  unfold singleCandidates
  split
  · next a =>
    rw [List.mem_flatMap]
    constructor
    · intro h
      obtain ⟨k, hk, hu⟩ := h
      rw [Iteration.mem_list] at hk
      obtain ⟨rfl, -, hviol⟩ := (mem_pairCandidates hloc hk).mp hu
      exact ⟨rfl, hviol⟩
    · intro h
      obtain ⟨hkey, hviol⟩ := h
      obtain rfl : a = u.function := by simpa using hkey
      have hk : [u.first, u.second] ∈ location.keys := by
        rw [Index.mem_keys_iff, hloc.pair]
        exact hviol.rule.occurs
      exact ⟨_, (Iteration.mem_list _).mpr hk, (mem_pairCandidates hloc hk).mpr ⟨rfl, rfl, hviol⟩⟩
  · next hnot =>
    refine iff_of_false List.not_mem_nil ?_
    intro h
    obtain ⟨hkey, -⟩ := h
    exact hnot _ hkey

/-- **The candidates are the violations.** -/
theorem mem_candidates (hloc : Records location D) {u : Candidate} :
    u ∈ candidates D s t ord location ↔
      D.Violation s t u.function u.first u.second u.caller := by
  rw [candidates, List.mem_flatMap]
  constructor
  · intro h
    obtain ⟨k, -, hu⟩ := h
    exact ((mem_singleCandidates hloc).mp hu).2
  · intro hviol
    have hk : [u.function] ∈ location.keys := by
      rw [Index.mem_keys_iff, hloc.single]
      exact ⟨_, hviol.mem⟩
    exact ⟨_, (Iteration.mem_list _).mpr hk, (mem_singleCandidates hloc).mpr ⟨rfl, hviol⟩⟩

/-- No candidate comes twice. -/
theorem nodup_candidates (s : Int) (t : ℚ) (ord : PrintOrder) (hloc : Records location D) :
    (candidates D s t ord location).Nodup := by
  refine nodup_flatMap_of_disjoint (Iteration.nodup_list ..) (fun k hk => ?_) ?_
  · unfold singleCandidates
    split
    · next a =>
      refine nodup_flatMap_of_disjoint (Iteration.nodup_list ..) (fun k' hk' => ?_) ?_
      · unfold pairCandidates
        split
        · split
          · refine nodup_flatMap_of_disjoint (Iteration.nodup_list ..)
              (fun c _ => List.nodup_singleton _) ?_
            rintro c - c' - u hu hu'
            simp only [List.mem_singleton] at hu hu'
            subst hu
            exact (Candidate.mk.inj hu').2.2.2
          · exact List.nodup_nil
        · exact List.nodup_nil
      · intro k' hk' k'' hk'' u hu hu'
        rw [Iteration.mem_list] at hk' hk''
        rw [((mem_pairCandidates hloc hk').mp hu).2.1, ((mem_pairCandidates hloc hk'').mp hu').2.1]
    · exact List.nodup_nil
  · intro k _ k' _ u hu hu'
    rw [((mem_singleCandidates hloc).mp hu).1, ((mem_singleCandidates hloc).mp hu').1]

/-- The loop over `locationTemp` goes through the candidates of its pair. -/
theorem printCallers_eq (hloc : Records location D) {a x y : String} (h : D.Rule s t a x y)
    (visit : List (List String)) :
    forEachWith (printCaller location s t [a] [x, y] a (D.single a).card (D.pair x y).card
        (Mining.confidence (D.pair x y) (D.single a)))
        ((ord.callers [a] [x, y]).list (D.single a \ D.pair x y)) visit =
      .ok (collect (reportOnce Candidate.mirror Candidate.key (Paired D s t) (lineOf D s t))
        (callerCandidates D ord a x y) visit) := by
  refine forEachWith_collect (fun c hc visit => ?_) visit
  rw [Iteration.mem_list, Finset.mem_sdiff] at hc
  rw [printCaller_eq hloc ⟨h, hc.1, hc.2⟩, collect, collect, List.append_nil]

/-- The loop over `pipairKey` goes through the candidates of its function. -/
theorem printPairs_eq (hloc : Records location D) {a : String} (ha : [a] ∈ location.keys)
    (visit : List (List String)) :
    printPairs ord location s t [a] visit =
      .ok (collect (reportOnce Candidate.mirror Candidate.key (Paired D s t) (lineOf D s t))
        (singleCandidates D s t ord location [a]) visit) := by
  rw [printPairs, Index.lookup_of_mem_keys ha, deref_some, ok_bind, element_zero, ok_bind,
    hloc.single, singleCandidates]
  refine forEachWith_collect (fun k hk visit => ?_) visit
  rw [Iteration.mem_list] at hk
  rcases hloc.keys k hk with ⟨z, rfl⟩ | ⟨x, y, rfl⟩
  · rw [if_neg (by simp)]
    rfl
  · have hne : (D.pair x y).Nonempty := by
      rw [← hloc.pair]
      exact Index.mem_keys_iff.mp hk
    rw [Index.lookup_of_mem_keys hk, deref_some, ok_bind, hloc.pair, pairCandidates]
    by_cases hmem : a = x ∨ a = y
    · rw [if_pos (by simpa using hmem)]
      by_cases hq : Qualifies s t (D.single a) (D.pair x y)
      · rw [if_pos ⟨hq.support_single, hq.support_pair, hq.confidence_lt, hq.confidence_ge⟩,
          if_pos ⟨hmem, hq⟩, ← printCallers_eq hloc ⟨hmem, hne, hq⟩]
        rfl
      · rw [if_neg fun h => hq ⟨h.1, h.2.1, h.2.2.1, h.2.2.2⟩, if_neg fun h => hq h.2]
        rfl
    · rw [if_neg (by simpa using hmem), if_neg fun h => hmem h.1]
      rfl

/-- **The loops go through the candidates.** -/
theorem printBug_eq (hloc : Records location D) :
    printBug ord location s t =
      .ok ((once Candidate.mirror Candidate.key (Paired D s t) (candidates D s t ord location)
        []).map (lineOf D s t)) := by
  have hloop : forEachWith (fun key visit =>
        if key.length = 1 then printPairs ord location s t key visit else pure (visit, []))
        (ord.singleKeys.list location.keys) [] =
      .ok (collect (reportOnce Candidate.mirror Candidate.key (Paired D s t) (lineOf D s t))
        (candidates D s t ord location) []) := by
    refine forEachWith_collect (fun k hk visit => ?_) []
    rw [Iteration.mem_list] at hk
    rcases hloc.keys k hk with ⟨a, rfl⟩ | ⟨x, y, rfl⟩
    · exact printPairs_eq hloc hk visit
    · rfl
  rw [printBug, hloop, ← collect_reportOnce]
  rfl

-- ---------------------------------------------------------------------------
-- The whole run
-- ---------------------------------------------------------------------------

theorem paired_mirror (u : Candidate) (h : Paired D s t u) :
    Paired D s t u.mirror ∧ u.mirror.mirror = u ∧ u.mirror ≠ u := by
  refine ⟨h.symm, rfl, fun heq => h.ne ?_⟩
  exact (congrArg Candidate.second heq)

/-- Paired candidates with names without a comma have different keys. -/
theorem key_injective (hname : ∀ x y, (D.pair x y).Nonempty → ',' ∉ x.toList)
    (u v : Candidate) (hu : Paired D s t u) (hv : Paired D s t v) (h : u.key = v.key) : u = v := by
  obtain ⟨a, x, y, c⟩ := u
  obtain ⟨a', x', y', c'⟩ := v
  simp only [Candidate.key, List.cons.injEq, and_true] at h
  obtain ⟨rfl, hpair, rfl⟩ := h
  obtain ⟨rfl, rfl⟩ := rendered_inj (hname _ _ hu.forth.rule.occurs)
    (hname _ _ hv.forth.rule.occurs) hpair
  rfl

/-- What a run prints: for a violation of both orders one of the two combined
lines, for any other violation its own line, and no other lines. -/
structure Reports (D : OrderedDatabase String String) (s : Int) (t : ℚ) (out : List BugLine) :
    Prop where
  nodup : out.Nodup
  single : ∀ a x y c, D.Violation s t a x y c → ¬ D.BothViolated s t a x y c →
    singleLine D a x y c ∈ out
  combined : ∀ a x y c, D.BothViolated s t a x y c →
    (combinedLine D a x y c ∈ out ↔ combinedLine D a y x c ∉ out)
  only : ∀ line ∈ out, ∃ a x y c, D.Violation s t a x y c ∧
    ((¬ D.BothViolated s t a x y c ∧ line = singleLine D a x y c) ∨
      (D.BothViolated s t a x y c ∧ line = combinedLine D a x y c))

/-- **What is printed** over a location that records `D`. -/
theorem printBug_reports (hloc : Records location D)
    (hname : ∀ x y, (D.pair x y).Nonempty → ',' ∉ x.toList) :
    ∃ out, printBug ord location s t = .ok out ∧ Reports D s t out := by
  have hnd := nodup_candidates s t ord hloc
  have hsub := once_sublist Candidate.mirror Candidate.key (Paired D s t)
    (candidates D s t ord location) []
  refine ⟨_, printBug_eq hloc, (hsub.nodup hnd).map lineOf_injective, ?_, ?_, ?_⟩
  · intro a x y c hviol hn
    refine List.mem_map.mpr ⟨⟨a, x, y, c⟩, ?_, if_neg hn⟩
    rw [mem_once_iff paired_mirror (key_injective hname) hnd (by simp), mem_candidates hloc]
    exact ⟨hviol, fun hb => absurd hb hn⟩
  · intro a x y c hboth
    -- the combined line is the line of its candidate
    have hline : ∀ x y, D.BothViolated s t a x y c →
        (combinedLine D a x y c ∈ (once Candidate.mirror Candidate.key (Paired D s t)
          (candidates D s t ord location) []).map (lineOf D s t) ↔
        (⟨a, x, y, c⟩ : Candidate) ∈ once Candidate.mirror Candidate.key (Paired D s t)
          (candidates D s t ord location) []) := by
      intro x y hb
      have heq : combinedLine D a x y c = lineOf D s t ⟨a, x, y, c⟩ := (if_pos hb).symm
      rw [heq, List.mem_map_of_injective lineOf_injective]
    rw [hline x y hboth, hline y x hboth.symm]
    exact once_mirror_iff paired_mirror (key_injective hname) hnd
      ((mem_candidates hloc).mpr hboth.forth) hboth ((mem_candidates hloc).mpr hboth.back)
  · intro line hmem
    obtain ⟨u, hu, rfl⟩ := List.mem_map.mp hmem
    refine ⟨u.function, u.first, u.second, u.caller, (mem_candidates hloc).mp (hsub.subset hu), ?_⟩
    by_cases hb : Paired D s t u
    · exact Or.inr ⟨hb, if_pos hb⟩
    · exact Or.inl ⟨hb, if_neg hb⟩

end Print

/-- No callee has a comma in its name. -/
def CommaFree (bs : List Block) : Prop := ∀ b ∈ bs, ∀ f ∈ b.callees, ',' ∉ f.toList

instance (bs : List Block) : Decidable (CommaFree bs) :=
  inferInstanceAs (Decidable (∀ b ∈ bs, ∀ f ∈ b.callees, ',' ∉ f.toList))

theorem reports_run (ord : PrintOrder) {bs : List Block} (s : Int) (t : ℚ)
    (hcomma : CommaFree bs) :
    ∃ out, run ord bs s t = .ok out ∧ Reports (orderedDatabase bs) s t out := by
  refine printBug_reports (records_location bs) fun x y hne => ?_
  obtain ⟨c, hc⟩ := hne
  obtain ⟨b, hb, -, hsub⟩ := mem_sites.mp hc
  exact hcomma b hb x (hsub.subset (by simp))

/-- The ordered pair `(x, y)` qualifies for its function `a`. -/
def QualifiesFor (bs : List Block) (s : Int) (t : ℚ) (a x y : String) : Prop :=
  (a = x ∨ a = y) ∧ (callersInOrder bs x y).Nonempty ∧
    s ≤ (callersOf bs a).card ∧ s ≤ (callersInOrder bs x y).card ∧
    t ≤ ((callersInOrder bs x y).card : ℚ) / (callersOf bs a).card ∧
    ((callersInOrder bs x y).card : ℚ) / (callersOf bs a).card < 1

/-- `c` has the function `a` outside both orders of `x` and `y`, which qualify. -/
def OutsideBoth (bs : List Block) (s : Int) (t : ℚ) (a x y c : String) : Prop :=
  x ≠ y ∧ QualifiesFor bs s t a x y ∧ QualifiesFor bs s t a y x ∧ c ∈ callersOf bs a ∧
    c ∉ callersInOrder bs x y ∧ c ∉ callersInOrder bs y x

theorem qualifiesFor_iff {bs : List Block} {s : Int} {t : ℚ} {a x y : String} :
    QualifiesFor bs s t a x y ↔ (orderedDatabase bs).Rule s t a x y := by
  constructor
  · intro h
    obtain ⟨h1, h2, h3, h4, h5, h6⟩ := h
    exact ⟨h1, h2, h3, h4, h6, h5⟩
  · intro h
    obtain ⟨h1, h2, h3, h4, h6, h5⟩ := h
    exact ⟨h1, h2, h3, h4, h5, h6⟩

theorem outsideBoth_iff {bs : List Block} {s : Int} {t : ℚ} {a x y c : String} :
    OutsideBoth bs s t a x y c ↔ (orderedDatabase bs).BothViolated s t a x y c := by
  rw [OutsideBoth, qualifiesFor_iff, qualifiesFor_iff]
  constructor
  · intro h
    obtain ⟨hxy, h1, h2, hc, hn1, hn2⟩ := h
    exact ⟨hxy, ⟨h1, hc, hn1⟩, ⟨h2, hc, hn2⟩⟩
  · intro h
    obtain ⟨hxy, ⟨h1, hc, hn1⟩, ⟨h2, -, hn2⟩⟩ := h
    exact ⟨hxy, h1, h2, hc, hn1, hn2⟩

/--
**Part D, whole run.** For callees without a comma in their names, whatever the
thresholds and the orders of the loops, the run succeeds and prints

1. for each `a` and `x ≠ y` of which both orders qualify for `a`, and each caller
   of `a` outside both orders, one of the two combined lines;
2. for each other caller of `a` outside an order `(x, y)` that qualifies for `a`,
   the single line;

each of them once, and no other lines.
-/
theorem run_prints_orders (ord : PrintOrder) (bs : List Block) (s : Int) (t : ℚ)
    (hcomma : CommaFree bs) :
    ∃ out, run ord bs s t = .ok out ∧ out.Nodup ∧
      (∀ a x y c, OutsideBoth bs s t a x y c →
        (combinedLine (orderedDatabase bs) a x y c ∈ out ↔
          combinedLine (orderedDatabase bs) a y x c ∉ out)) ∧
      (∀ a x y c, QualifiesFor bs s t a x y → c ∈ callersOf bs a → c ∉ callersInOrder bs x y →
        ¬ OutsideBoth bs s t a x y c → singleLine (orderedDatabase bs) a x y c ∈ out) ∧
      ∀ line ∈ out,
        (∃ a x y c, OutsideBoth bs s t a x y c ∧
          line = combinedLine (orderedDatabase bs) a x y c) ∨
        ∃ a x y c, QualifiesFor bs s t a x y ∧ c ∈ callersOf bs a ∧
          c ∉ callersInOrder bs x y ∧ ¬ OutsideBoth bs s t a x y c ∧
          line = singleLine (orderedDatabase bs) a x y c := by
  obtain ⟨out, hrun, hnodup, hsingle, hcombined, honly⟩ := reports_run ord s t hcomma
  refine ⟨out, hrun, hnodup, ?_, ?_, ?_⟩
  · intro a x y c hboth
    exact hcombined a x y c (outsideBoth_iff.mp hboth)
  · intro a x y c hq hc hn hnot
    rw [outsideBoth_iff] at hnot
    exact hsingle a x y c ⟨qualifiesFor_iff.mp hq, hc, hn⟩ hnot
  · intro line hline
    obtain ⟨a, x, y, c, hviol, ⟨hnot, rfl⟩ | ⟨hboth, rfl⟩⟩ := honly line hline
    · refine Or.inr ⟨a, x, y, c, qualifiesFor_iff.mpr hviol.rule, hviol.mem, hviol.notMem, ?_, rfl⟩
      rwa [outsideBoth_iff]
    · exact Or.inl ⟨a, x, y, c, outsideBoth_iff.mpr hboth, rfl⟩

/-- `A` and `B` are called three times in either order, and once `A` alone. -/
def eitherWay : List Block :=
  [⟨"f1", ["A", "B"]⟩, ⟨"f2", ["A", "B"]⟩, ⟨"f3", ["A", "B"]⟩, ⟨"f4", ["B", "A"]⟩,
    ⟨"f5", ["B", "A"]⟩, ⟨"f6", ["B", "A"]⟩, ⟨"f7", ["A"]⟩]

theorem run_prints_orders_eitherWay :
    ∃ out, run default eitherWay 3 (2 / 5) = .ok out ∧
      (combinedLine (orderedDatabase eitherWay) "A" "A" "B" "f7" ∈ out ↔
        combinedLine (orderedDatabase eitherWay) "A" "B" "A" "f7" ∉ out) := by
  obtain ⟨out, hrun, -, hcombined, -⟩ :=
    run_prints_orders default eitherWay 3 (2 / 5) (by decide +kernel)
  refine ⟨out, hrun, hcombined "A" "A" "B" "f7" ?_⟩
  rw [outsideBoth_iff]
  decide +kernel

end Pipair.PartD
