import Pipair.PartD.AnyNames
import Pipair.PartD.Rounded
import Pipair.ReportText

/-!
# Part D, the printed lines as text

The lines of part D have one pair or two. As for the other programs, when the functions
have no blanks in their names the text of a line determines what is shown in it
(`text_inj`): a line with two pairs has more words than one with one pair, and the words
are the same only if what they show is. So comparing sorted outputs compares reports
(`main_texts_orders_iff`), commas in the names or not.
-/

namespace Pipair.PartD

open Mining
open Rounded (pairText text rounded)

-- ---------------------------------------------------------------------------
-- The words of a line
-- ---------------------------------------------------------------------------

/-- What the text of a pair is to show. -/
structure ShownPair where
  pair : String × String
  support : Nat
  hundredths : Nat
deriving DecidableEq

def Reported.shown (decimal : ℚ → ℚ) (r : Reported) : ShownPair :=
  ⟨r.pair, r.support, hundredths (written decimal r.confidence)⟩

/-- What the text of a line is to show. -/
structure ShownLine where
  function : String
  caller : String
  pair : ShownPair
  pair2 : Option ShownPair
deriving DecidableEq

def BugLine.shown (decimal : ℚ → ℚ) : BugLine → ShownLine
  | .single function caller pair => ⟨function, caller, pair.shown decimal, none⟩
  | .combined function caller pair pair2 =>
    ⟨function, caller, pair.shown decimal, some (pair2.shown decimal)⟩

/-- The names in the pair are without blanks. -/
structure Reported.Worded (r : Reported) : Prop where
  first : IsWord r.pair.1
  second : IsWord r.pair.2

/-- The names in the line are without blanks. -/
def BugLine.Worded : BugLine → Prop
  | .single function caller pair => IsWord function ∧ IsWord caller ∧ pair.Worded
  | .combined function caller pair pair2 =>
    IsWord function ∧ IsWord caller ∧ pair.Worded ∧ pair2.Worded

/-- The words of the text of a pair. -/
def Reported.words (decimal : ℚ → ℚ) (r : Reported) : List (List Char) :=
  pairWords r.pair r.support (written decimal r.confidence)

def BugLine.words (decimal : ℚ → ℚ) : BugLine → List (List Char)
  | .single function caller pair => headWords function caller ++ pair.words decimal
  | .combined function caller pair pair2 =>
    headWords function caller ++ (pair.words decimal ++ "or".toList :: pair2.words decimal)

section Text

variable {decimal : ℚ → ℚ} {r r' : Reported} {l l' : BugLine}

/-- The equations of the definitions, which are slow to come by otherwise. -/
theorem pairText_eq (decimal : ℚ → ℚ) (r : Reported) :
    pairText decimal r = "pair: " ++ ("(" ++ r.pair.1 ++ ", " ++ r.pair.2 ++ ")") ++
      ", support: " ++ toString r.support ++ ", confidence: " ++
      percent (written decimal r.confidence) := rfl

theorem text_single (decimal : ℚ → ℚ) (f c : String) (r : Reported) :
    text decimal (.single f c r) = "bug: " ++ f ++ " in " ++ c ++ ", " ++ pairText decimal r := rfl

theorem text_combined (decimal : ℚ → ℚ) (f c : String) (r r' : Reported) :
    text decimal (.combined f c r r') =
      "bug: " ++ f ++ " in " ++ c ++ ", " ++ pairText decimal r ++ " or " ++
        pairText decimal r' := rfl

theorem text_eq_words (decimal : ℚ → ℚ) (l : BugLine) :
    (text decimal l).toList = [' '].intercalate (l.words decimal) := by
  cases l with
  | single f c r =>
    simp [text_single, pairText_eq, BugLine.words, headWords, Reported.words, pairWords,
      List.intercalate, List.intersperse]
  | combined f c r r' =>
    simp [text_combined, pairText_eq, BugLine.words, headWords, Reported.words, pairWords,
      List.intercalate, List.intersperse]

theorem Reported.blank_notMem_words (h : r.Worded) : ∀ w ∈ r.words decimal, ' ' ∉ w :=
  blank_notMem_pairWords h.first h.second

theorem BugLine.blank_notMem_words (h : l.Worded) : ∀ w ∈ l.words decimal, ' ' ∉ w := by
  intro w hw
  cases l with
  | single f c r =>
    obtain ⟨hf, hc, hr⟩ := h
    rcases List.mem_append.mp hw with hw | hw
    · exact blank_notMem_headWords hf hc w hw
    · exact Reported.blank_notMem_words hr w hw
  | combined f c r r' =>
    obtain ⟨hf, hc, hr, hr'⟩ := h
    rcases List.mem_append.mp hw with hw | hw
    · exact blank_notMem_headWords hf hc w hw
    · rcases List.mem_append.mp hw with hw | hw
      · exact Reported.blank_notMem_words hr w hw
      · rcases List.mem_cons.mp hw with rfl | hw
        · decide
        · exact Reported.blank_notMem_words hr' w hw

theorem Reported.length_words (r : Reported) : (r.words decimal).length = 7 := length_pairWords ..

theorem Reported.words_inj (h : r.words decimal = r'.words decimal) :
    r.shown decimal = r'.shown decimal := by
  obtain ⟨hpair, hs, hx⟩ := pairWords_inj h
  rw [Reported.shown, Reported.shown, hpair, hs, hx]

/-- What the words of the line show. -/
theorem BugLine.words_inj (h : l.words decimal = l'.words decimal) :
    l.shown decimal = l'.shown decimal := by
  cases l with
  | single f c r =>
    cases l' with
    | single f' c' r' =>
      obtain ⟨hhead, hr⟩ := List.append_inj h (by rw [length_headWords, length_headWords])
      obtain ⟨rfl, rfl⟩ := headWords_inj hhead
      rw [BugLine.shown, BugLine.shown, Reported.words_inj hr]
    | combined f' c' r' r'' =>
      -- there are more words for two pairs
      exact absurd (congrArg List.length h)
        (by simp [BugLine.words, length_headWords, Reported.length_words])
  | combined f c r₁ r₂ =>
    cases l' with
    | single f' c' r' =>
      exact absurd (congrArg List.length h)
        (by simp [BugLine.words, length_headWords, Reported.length_words])
    | combined f' c' r₁' r₂' =>
      obtain ⟨hhead, hpairs⟩ := List.append_inj h (by rw [length_headWords, length_headWords])
      obtain ⟨rfl, rfl⟩ := headWords_inj hhead
      obtain ⟨hr₁, htail⟩ := List.append_inj hpairs
        (by rw [Reported.length_words, Reported.length_words])
      rw [BugLine.shown, BugLine.shown, Reported.words_inj hr₁,
        Reported.words_inj (List.cons.inj htail).2]

theorem pairText_congr (h : r.shown decimal = r'.shown decimal) :
    pairText decimal r = pairText decimal r' := by
  simp only [Reported.shown, ShownPair.mk.injEq] at h
  obtain ⟨hpair, hs, hp⟩ := h
  rw [pairText_eq, pairText_eq, percent_eq, percent_eq, hpair, hs, hp]

theorem text_congr (h : l.shown decimal = l'.shown decimal) :
    text decimal l = text decimal l' := by
  cases l with
  | single f c r =>
    cases l' with
    | single f' c' r' =>
      simp only [BugLine.shown, ShownLine.mk.injEq, and_true] at h
      obtain ⟨rfl, rfl, hr⟩ := h
      rw [text_single, text_single, pairText_congr hr]
    | combined f' c' r' r'' => simp [BugLine.shown] at h
  | combined f c r₁ r₂ =>
    cases l' with
    | single f' c' r' => simp [BugLine.shown] at h
    | combined f' c' r₁' r₂' =>
      simp only [BugLine.shown, ShownLine.mk.injEq, Option.some.injEq] at h
      obtain ⟨rfl, rfl, hr₁, hr₂⟩ := h
      rw [text_combined, text_combined, pairText_congr hr₁, pairText_congr hr₂]

/-- **The text of a line** determines what it shows. -/
theorem text_inj (h : l.Worded) (h' : l'.Worded) :
    text decimal l = text decimal l' ↔ l.shown decimal = l'.shown decimal := by
  refine ⟨fun heq => BugLine.words_inj ?_, text_congr⟩
  have hne : ∀ l : BugLine, l.words decimal ≠ [] := by
    intro l
    cases l <;> exact List.cons_ne_nil _ _
  have hchars := congrArg String.toList heq
  rw [text_eq_words, text_eq_words] at hchars
  exact intercalate_inj (BugLine.blank_notMem_words h) (BugLine.blank_notMem_words h') (hne l)
    (hne l') hchars

end Text

-- ---------------------------------------------------------------------------
-- Reports
-- ---------------------------------------------------------------------------

section Report

variable {bs : List Block} {D : OrderedDatabase String String} {a x y c : String} {line : BugLine}

/-- The line reports a violation, in one order or in both. -/
def ReportsViolation (bs : List Block) (s : Int) (t : ℚ) (line : BugLine) : Prop :=
  ∃ a x y c, (orderedDatabase bs).Violation s t a x y c ∧
    (line = singleLine (orderedDatabase bs) a x y c ∨
      line = combinedLine (orderedDatabase bs) a x y c)

/-- The lines of both versions report violations, each line once. -/
theorem reports_main {text : List Char} {out : List BugLine} {ord : PrintOrder} {s : Int} {t : ℚ}
    (hout : main ord text s t = .ok out ∨ Earlier.main ord text s t = .ok out) :
    out.Nodup ∧ ∀ line ∈ out, ReportsViolation (blocks text) s t line := by
  have hloc := records_location (blocks text)
  rcases hout with hout | hout
  · rw [main_eq_run] at hout
    obtain rfl := Except.ok.inj (hout.symm.trans (printBug_eq hloc))
    refine ⟨(nodup_reported hloc).map lineOf_injective, fun line hline => ?_⟩
    obtain ⟨u, hu, rfl⟩ := List.mem_map.mp hline
    refine ⟨_, _, _, _, violation_of_reported hloc hu, ?_⟩
    rw [lineOf]
    split
    · exact Or.inr rfl
    · exact Or.inl rfl
  · rw [Earlier.main_eq_run] at hout
    obtain ⟨out', hout', hnd, hmem⟩ := Earlier.run_prints ord (blocks text) s t
    obtain rfl := Except.ok.inj (hout.symm.trans hout')
    refine ⟨hnd, fun line hline => ?_⟩
    obtain ⟨a, x, y, c, hviol, rfl⟩ := (hmem line).mp hline
    exact ⟨a, x, y, c, hviol, Or.inl rfl⟩

/-- Rounding leaves the names as they are. -/
theorem worded_rounded (h : line.Worded) : (rounded line).Worded := by
  have hpair : ∀ {r : Reported}, r.Worded → (Rounded.roundedPair r).Worded :=
    fun hr => ⟨hr.first, hr.second⟩
  cases line with
  | single f c r => exact ⟨h.1, h.2.1, hpair h.2.2⟩
  | combined f c r r' => exact ⟨h.1, h.2.1, hpair h.2.2.1, hpair h.2.2.2⟩

theorem worded_of_reports {s : Int} {t : ℚ} (h : Worded bs) (hline : ReportsViolation bs s t line) :
    line.Worded := by
  obtain ⟨a, x, y, c, hviol, hline⟩ := hline
  -- the function is one of the pair, which has been called in this order
  obtain ⟨d, hd⟩ := hviol.rule.occurs
  obtain ⟨node, hnode, -, hsub⟩ := mem_sites.mp hd
  have hx : IsWord x := (h node hnode).2 x (hsub.subset (by simp))
  have hy : IsWord y := (h node hnode).2 y (hsub.subset (by simp))
  have ha : IsWord a := by
    rcases hviol.rule.member with rfl | rfl
    · exact hx
    · exact hy
  have hc : IsWord c := by
    have hmem : c ∈ callersOf bs a := hviol.mem
    obtain ⟨node, hnode, rfl, -⟩ := mem_sites.mp hmem
    exact (h node hnode).1
  rcases hline with rfl | rfl
  · exact ⟨ha, hc, hx, hy⟩
  · exact ⟨ha, hc, ⟨hx, hy⟩, hy, hx⟩

/-- Two lines of one run differ in the names they show, rounded or not. -/
theorem shown_inj {s : Int} {t : ℚ} {decimal : ℚ → ℚ} {line line' : BugLine}
    (hline : ReportsViolation bs s t line) (hline' : ReportsViolation bs s t line')
    (h : (rounded line).shown decimal = (rounded line').shown decimal) : line = line' := by
  obtain ⟨a, x, y, c, -, rfl | rfl⟩ := hline <;>
    obtain ⟨a', x', y', c', -, rfl | rfl⟩ := hline' <;>
    simp only [singleLine, combinedLine, rounded, Rounded.roundedPair, BugLine.shown,
      Reported.shown, reported, ShownLine.mk.injEq, ShownPair.mk.injEq, Prod.mk.injEq,
      reduceCtorEq, and_false] at h
  · obtain ⟨rfl, rfl, ⟨⟨rfl, rfl⟩, -⟩, -⟩ := h
    rfl
  · obtain ⟨rfl, rfl, ⟨⟨rfl, rfl⟩, -⟩, -⟩ := h
    rfl

/-- The lines of both versions with `double` confidences are the rounded ones of such a report. -/
theorem reports_rounded {text : List Char} (hsize : (blocks text).length < 2 ^ 31)
    {out : List BugLine} {ord : PrintOrder} {s : Int} {c : ℤ}
    (hout : Rounded.main ord text s c = .ok out ∨ Rounded.Earlier.main ord text s c = .ok out) :
    ∃ exact : List BugLine, out = exact.map rounded ∧ exact.Nodup ∧
      ∀ line ∈ exact, ReportsViolation (blocks text) s (c / 100) line := by
  have hexact : ∃ exact : List BugLine, out = exact.map rounded ∧
      (main ord text s (c / 100) = .ok exact ∨ Earlier.main ord text s (c / 100) = .ok exact) := by
    rcases hout with hout | hout
    · rw [Rounded.main_eq_rounded ord hsize] at hout
      obtain ⟨exact, hrun, rfl⟩ := Loop.exists_of_map_ok hout
      exact ⟨exact, rfl, Or.inl hrun⟩
    · rw [Rounded.Earlier.main_eq_rounded ord hsize] at hout
      obtain ⟨exact, hrun, rfl⟩ := Loop.exists_of_map_ok hout
      exact ⟨exact, rfl, Or.inr hrun⟩
  obtain ⟨exact, rfl, hrun⟩ := hexact
  exact ⟨exact, rfl, reports_main hrun⟩

end Report

/--
**Comparing texts of part D.** Let the text have no function with a blank in its name and fewer
than `2 ^ 31` nodes, and let one of the two versions of part D print the lines `out` for it, with
whatever support, whole percentage and orders. The percentages are written in any decimal notation.

1. No two of the lines have the same text.
2. Take any lines `gold` without blanks in their names. The texts of `out` and of `gold` are the
   same up to their order exactly when the lines are, with the confidences in the hundredths of a
   percent that are printed.
-/
theorem main_texts_orders_iff {text : List Char} (h : Worded (blocks text))
    (hsize : (blocks text).length < 2 ^ 31) {out : List BugLine} {ord : PrintOrder} {s : Int}
    {c : ℤ}
    (hout : Rounded.main ord text s c = .ok out ∨ Rounded.Earlier.main ord text s c = .ok out)
    (decimal : ℚ → ℚ) :
    (out.map (Rounded.text decimal)).Nodup ∧
    ∀ gold : List BugLine, (∀ line ∈ gold, line.Worded) →
      ((out.map (Rounded.text decimal)).Perm (gold.map (Rounded.text decimal)) ↔
        (out.map (BugLine.shown decimal)).Perm (gold.map (BugLine.shown decimal))) := by
  obtain ⟨exact, rfl, hnd, hreports⟩ := reports_rounded hsize hout
  have hworded : ∀ line ∈ exact.map rounded, line.Worded := by
    intro line hline
    obtain ⟨line, hmem, rfl⟩ := List.mem_map.mp hline
    exact worded_rounded (worded_of_reports h (hreports line hmem))
  constructor
  · rw [List.map_map]
    refine hnd.map_on fun l hl l' hl' heq => ?_
    have hshown := (text_inj (hworded _ (List.mem_map_of_mem hl))
      (hworded _ (List.mem_map_of_mem hl'))).mp heq
    exact shown_inj (hreports l hl) (hreports l' hl') hshown
  · intro gold hgold
    have hall : ∀ l ∈ exact.map rounded ++ gold, l.Worded := fun l hl =>
      (List.mem_append.mp hl).elim (hworded l) (hgold l)
    exact perm_map_iff fun l hl l' hl' => text_inj (hall l hl) (hall l' hl')

theorem main_texts_orders_iff_withAndWithout :
    ∃ out, Rounded.main default withAndWithout 1 50 = .ok out ∧
      (out.map (Rounded.text id)).Nodup := by
  have hexact : main default withAndWithout 1 ((50 : ℤ) / 100) = .ok _ :=
    (main_eq_run ..).trans (printBug_eq (records_location (blocks withAndWithout)))
  have hsize : (blocks withAndWithout).length < 2 ^ 31 := by decide +kernel
  have hout := Rounded.main_eq_rounded default hsize 1 50
  rw [hexact] at hout
  exact ⟨_, hout,
    (main_texts_orders_iff (by decide +kernel) hsize (Or.inl hout) id).1⟩

end Pipair.PartD
