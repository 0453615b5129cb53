import Pipair.CountingRounded
import Pipair.Library.Words

/-!
# The printed lines as text

`verify.sh` compares programs by their output: the lines are sorted and compared as
texts. Here it is shown what such a comparison says. The texts are those that the
programs print, with the percentage taken from the product of two `double`s. When the
functions have no blanks in their names, the text of a line determines what is shown in
it, the confidence in the hundredths of a percent that are printed (`text_inj`). So the
texts of two reports agree, in whatever order, exactly when the reports agree in this,
and no program prints a text twice (`main_texts_perm_iff`).
-/

namespace Pipair

open Mining
open Doubles (double rounded text)

-- ---------------------------------------------------------------------------
-- The words of a line
-- ---------------------------------------------------------------------------

/-- The confidence in hundredths of a percent. -/
def hundredths (x : ℚ) : Nat := (x * 10000 + 1 / 2).floor.toNat

/-- What the text of a line is to show. -/
structure Shown where
  function : String
  caller : String
  pair : String × String
  support : Nat
  hundredths : Nat
deriving DecidableEq

/-- The number that is written for a confidence: `confidencePair*100` in a decimal notation. -/
def written (decimal : ℚ → ℚ) (confidence : ℚ) : ℚ := decimal (double (confidence * 100)) / 100

def BugLine.shown (decimal : ℚ → ℚ) (l : BugLine) : Shown :=
  ⟨l.function, l.caller, l.pair, l.support, Pipair.hundredths (written decimal l.confidence)⟩

/-- A name without blanks. -/
def IsWord (s : String) : Prop := ' ' ∉ s.toList

instance (s : String) : Decidable (IsWord s) := inferInstanceAs (Decidable (' ' ∉ s.toList))

/-- The names in the line are without blanks. -/
structure BugLine.Worded (l : BugLine) : Prop where
  function : IsWord l.function
  caller : IsWord l.caller
  first : IsWord l.pair.1
  second : IsWord l.pair.2

/-- The words in front of the pair. -/
def headWords (function caller : String) : List (List Char) :=
  ["bug:".toList, function.toList, "in".toList, caller.toList ++ [',']]

/-- The words of a pair with its support and its confidence. -/
def pairWords (pair : String × String) (support : Nat) (confidence : ℚ) : List (List Char) :=
  ["pair:".toList, '(' :: (pair.1.toList ++ [',']), pair.2.toList ++ [')', ','],
    "support:".toList, (toString support).toList ++ [','], "confidence:".toList,
    (percent confidence).toList]

/-- The words of the text, which has single blanks between them. -/
def BugLine.words (decimal : ℚ → ℚ) (l : BugLine) : List (List Char) :=
  headWords l.function l.caller ++ pairWords l.pair l.support (written decimal l.confidence)

section Text

variable {decimal : ℚ → ℚ} {l l' : BugLine} {x y : ℚ} {n m : Nat} {f c f' c' : String}
  {p q : String × String}

/-- The equation of the definition, which is slow to come by otherwise. -/
theorem text_eq (decimal : ℚ → ℚ) (l : BugLine) :
    text decimal l = "bug: " ++ l.function ++ " in " ++ l.caller ++ ", pair: (" ++ l.pair.1 ++
      ", " ++ l.pair.2 ++ "), support: " ++ toString l.support ++ ", confidence: " ++
      percent (written decimal l.confidence) := rfl

theorem text_eq_words (decimal : ℚ → ℚ) (l : BugLine) :
    (text decimal l).toList = [' '].intercalate (l.words decimal) := by
  simp [text_eq, BugLine.words, headWords, pairWords, List.intercalate, List.intersperse]

/-- Two digits for the cents. -/
def padded (cents : Nat) : String := (if cents < 10 then "0" else "") ++ toString cents

theorem percent_eq (x : ℚ) :
    percent x = toString (hundredths x / 100) ++ "." ++ padded (hundredths x % 100) ++ "%" := by
  simp [percent, hundredths, padded, String.append_assoc]

theorem padded_inj (h : (padded n).toList = (padded m).toList) : n = m := by
  -- a zero in front of the digits does not change the number they stand for
  have hvalue : ∀ k, Nat.ofDigitChars 10 (padded k).toList 0 = k := by
    intro k
    rw [padded, Nat.toString_eq_repr, String.toList_append, Nat.toList_repr]
    split
    · simp [Nat.ofDigitChars_cons]
    · simp
  rw [← hvalue n, h, hvalue]

/-- The text of a percentage shows its hundredths. -/
theorem percent_inj (h : percent x = percent y) : hundredths x = hundredths y := by
  -- the point stands between two parts without points
  have hdigits : ∀ k : Nat, '.' ∉ (toString k).toList := fun k hmem =>
    absurd (isDigit_of_mem_toString hmem) (by decide)
  have hpadded : ∀ k, '.' ∉ (padded k).toList := by
    intro k
    rw [padded, String.toList_append, List.mem_append, not_or]
    refine ⟨?_, hdigits k⟩
    split <;> decide
  have hparts : ∀ z, (percent z).toList = ['.'].intercalate
      [(toString (hundredths z / 100)).toList, (padded (hundredths z % 100)).toList ++ ['%']] := by
    intro z
    simp [percent_eq, List.intercalate, List.intersperse]
  have hfree : ∀ z, ∀ w ∈ [(toString (hundredths z / 100)).toList,
      (padded (hundredths z % 100)).toList ++ ['%']], '.' ∉ w := by
    intro z w hw
    simp only [List.mem_cons, List.not_mem_nil, or_false] at hw
    rcases hw with rfl | rfl
    · exact hdigits _
    · simp [hpadded]
  have hxy := congrArg String.toList h
  rw [hparts, hparts] at hxy
  have hlist := intercalate_inj (hfree x) (hfree y) (List.cons_ne_nil _ _)
    (List.cons_ne_nil _ _) hxy
  simp only [List.cons.injEq, and_true] at hlist
  have hwhole := toString_nat_inj hlist.1
  have hcents := padded_inj (List.append_cancel_right hlist.2)
  omega

theorem blank_notMem_toString : ' ' ∉ (toString n).toList := fun h =>
  absurd (isDigit_of_mem_toString h) (by decide)

theorem blank_notMem_percent : ' ' ∉ (percent x).toList := by
  rw [percent_eq, padded]
  simp only [String.toList_append, List.mem_append, not_or]
  refine ⟨⟨⟨blank_notMem_toString, by decide⟩, ?_, blank_notMem_toString⟩, by decide⟩
  split <;> decide

theorem blank_notMem_headWords (hf : IsWord f) (hc : IsWord c) :
    ∀ w ∈ headWords f c, ' ' ∉ w := by
  have hf' : ' ' ∉ f.toList := hf
  have hc' : ' ' ∉ c.toList := hc
  intro w hw
  simp only [headWords, List.mem_cons, List.not_mem_nil, or_false] at hw
  rcases hw with rfl | rfl | rfl | rfl
  all_goals simp [hf', hc']

theorem blank_notMem_pairWords (h1 : IsWord p.1) (h2 : IsWord p.2) :
    ∀ w ∈ pairWords p n x, ' ' ∉ w := by
  have h1' : ' ' ∉ p.1.toList := h1
  have h2' : ' ' ∉ p.2.toList := h2
  have hsupport : ' ' ∉ Nat.toDigits 10 n := by
    rw [← Nat.toList_repr]
    exact blank_notMem_toString
  have hpercent : ' ' ∉ (percent x).toList := blank_notMem_percent
  intro w hw
  simp only [pairWords, List.mem_cons, List.not_mem_nil, or_false] at hw
  rcases hw with rfl | rfl | rfl | rfl | rfl | rfl | rfl
  all_goals simp [h1', h2', hsupport, hpercent]

theorem blank_notMem_words (h : l.Worded) : ∀ w ∈ l.words decimal, ' ' ∉ w := by
  intro w hw
  rcases List.mem_append.mp hw with hw | hw
  · exact blank_notMem_headWords h.function h.caller w hw
  · exact blank_notMem_pairWords h.first h.second w hw

theorem length_headWords (f c : String) : (headWords f c).length = 4 := rfl

theorem length_pairWords (p : String × String) (n : Nat) (x : ℚ) :
    (pairWords p n x).length = 7 := rfl

theorem headWords_inj (h : headWords f c = headWords f' c') : f = f' ∧ c = c' := by
  simp only [headWords, List.cons.injEq, true_and, and_true] at h
  exact ⟨String.toList_injective h.1, String.toList_injective (List.append_cancel_right h.2)⟩

/-- The words of a pair show the confidence up to hundredths of a percent. -/
theorem pairWords_inj (h : pairWords p n x = pairWords q m y) :
    p = q ∧ n = m ∧ hundredths x = hundredths y := by
  simp only [pairWords, List.cons.injEq, true_and, and_true] at h
  obtain ⟨h1, h2, hs, hp⟩ := h
  have h1 := List.append_cancel_right h1
  have h2 := List.append_cancel_right h2
  have hs := List.append_cancel_right hs
  exact ⟨Prod.ext (String.toList_injective h1) (String.toList_injective h2), toString_nat_inj hs,
    percent_inj (String.toList_injective hp)⟩

/-- **The text of a line** determines what it shows. -/
theorem text_inj (h : l.Worded) (h' : l'.Worded) :
    text decimal l = text decimal l' ↔ l.shown decimal = l'.shown decimal := by
  constructor
  · intro heq
    have hchars := congrArg String.toList heq
    rw [text_eq_words, text_eq_words] at hchars
    have hwords := intercalate_inj (blank_notMem_words h) (blank_notMem_words h')
      (List.cons_ne_nil _ _) (List.cons_ne_nil _ _) hchars
    obtain ⟨hhead, hpair⟩ := List.append_inj hwords (by rw [length_headWords, length_headWords])
    obtain ⟨hf, hc⟩ := headWords_inj hhead
    obtain ⟨hp, hs, hx⟩ := pairWords_inj hpair
    rw [BugLine.shown, BugLine.shown, hf, hc, hp, hs, hx]
  · intro heq
    simp only [BugLine.shown, Shown.mk.injEq] at heq
    obtain ⟨hf, hc, hpair, hs, hp⟩ := heq
    rw [text_eq, text_eq, percent_eq, percent_eq, hf, hc, hpair, hs, hp]

end Text

-- ---------------------------------------------------------------------------
-- Reports
-- ---------------------------------------------------------------------------

/-- No function has a blank in its name. -/
def Worded (bs : List Block) : Prop := ∀ b ∈ bs, IsWord b.caller ∧ ∀ f ∈ b.callees, IsWord f

instance (bs : List Block) : Decidable (Worded bs) :=
  inferInstanceAs (Decidable (∀ b ∈ bs, IsWord b.caller ∧ ∀ f ∈ b.callees, IsWord f))

/-- What one of the programs that key `location` by sets prints on a text, for some support and
some whole percentage. -/
inductive Report (text : List Char) (out : List BugLine) : Prop
  | partA {ord : PrintOrder} {s : Int} {c : ℤ} :
      Doubles.partA ord text s c = .ok out → Report text out
  | counting {ord : Counting.CountOrder} {s : Int} {c : ℤ} :
      Counting.Rounded.main ord text s c = .ok out → Report text out
  | search {ord : PrintOrder} {search : PartC.SearchOrder} {e s : Int} {c : ℤ} :
      Doubles.search ord search e text s c = .ok out → Report text out
  | expand {ord : PrintOrder} {expand : PartC.Expand.ExpandOrder} {e s : Int} {c : ℤ} :
      Doubles.expand ord expand e text s c = .ok out → Report text out
  | setExpand {ord : PrintOrder} {expand : PartC.Expand.ExpandOrder} {s : Int} {c : ℤ} :
      Doubles.setExpand ord expand text s c = .ok out → Report text out

section Report

variable {text : List Char} {out : List BugLine} {bs : List Block}

/-- The line is about functions that are called and about a caller. -/
def About (bs : List Block) (a b c : String) : Prop :=
  (∃ f, f ∈ callersOf bs a) ∧ (∃ f, f ∈ callersOf bs b) ∧ ∃ node ∈ bs, c = node.caller

/-- A violation is about functions that occur in the database. -/
theorem about_of_violation {D : Database String String} {s : Int} {t : ℚ} {a b c : String}
    (hviol : D.Violation s t a b c)
    (hD : ∀ a c, c ∈ D.single a → (∃ f, f ∈ callersOf bs a) ∧ ∃ node ∈ bs, c = node.caller) :
    About bs a b c := by
  obtain ⟨f, hf⟩ := hviol.occurs
  have hb : f ∈ D.single b := D.pair_subset b a (D.pair_comm a b ▸ hf)
  exact ⟨(hD a c hviol.mem).1, (hD b f hb).1, (hD a c hviol.mem).2⟩

theorem called_of_callersOf {a c : String} (h : c ∈ callersOf bs a) :
    (∃ f, f ∈ callersOf bs a) ∧ ∃ node ∈ bs, c = node.caller := by
  obtain ⟨node, hnode, hc, -⟩ := mem_sites.mp h
  exact ⟨⟨c, h⟩, node, hnode, hc⟩

theorem callersOf_of_calls {f a : String} (h : PartC.Calls (lastCallees bs) f a) :
    f ∈ callersOf bs a := by
  obtain ⟨s, hs, ha⟩ := h
  obtain ⟨pre, node, post, rfl, rfl, -, -, rfl⟩ := get_lastCallees_iff.mp hs
  exact mem_sites.mpr ⟨node, by simp, rfl, List.mem_toFinset.mp ha⟩

theorem called_of_keySet {f c a : String} (hc : c ∈ (lastCallees bs).keySet)
    (hcall : PartC.Calls (lastCallees bs) f a) :
    (∃ f, f ∈ callersOf bs a) ∧ ∃ node ∈ bs, c = node.caller := by
  obtain ⟨s, hs⟩ := HashMap.exists_get_of_mem hc
  obtain ⟨pre, node, post, rfl, rfl, -⟩ := get_lastCallees_iff.mp hs
  exact ⟨⟨f, callersOf_of_calls hcall⟩, node, by simp, rfl⟩

/-- Lines that are made of a function, a partner and a caller of the call graph, and that can be
told apart by these. -/
structure MadeOf (bs : List Block) (out : List BugLine)
    (line : String → String → String → BugLine) : Prop where
  nodup : out.Nodup
  names : ∀ a b c, (line a b c).function = a ∧ (line a b c).caller = c ∧
    (line a b c).pair = lexicographic a b
  about : ∀ l ∈ out, ∃ a b c, l = line a b c ∧ About bs a b c

/-- The lines of a run, rounded. -/
theorem MadeOf.of_prints {run : Except Fault (List BugLine)} {P : String → String → String → Prop}
    {line : String → String → String → BugLine}
    (hprints : Prints run fun l => ∃ a b c, P a b c ∧ l = line a b c)
    (hnames : ∀ a b c, (line a b c).function = a ∧ (line a b c).caller = c ∧
      (line a b c).pair = lexicographic a b)
    (habout : ∀ a b c, P a b c → About bs a b c)
    (hout : run.map (List.map rounded) = .ok out) :
    MadeOf bs out fun a b c => rounded (line a b c) := by
  obtain ⟨exact, hrun, hnd, hmem⟩ := hprints
  rw [hrun] at hout
  obtain rfl : exact.map rounded = out := Except.ok.inj hout
  -- rounding leaves the names as they are
  have hnames' : ∀ a b c, (rounded (line a b c)).function = a ∧ (rounded (line a b c)).caller = c ∧
      (rounded (line a b c)).pair = lexicographic a b := hnames
  refine ⟨hnd.map_on fun l hl l' hl' heq => ?_, hnames', fun l hl => ?_⟩
  · obtain ⟨a, b, c, -, rfl⟩ := (hmem l).mp hl
    obtain ⟨a', b', c', -, rfl⟩ := (hmem l').mp hl'
    obtain ⟨hfunction, hcaller, hpair⟩ := hnames' a b c
    obtain ⟨hfunction', hcaller', hpair'⟩ := hnames' a' b' c'
    rw [heq, hfunction'] at hfunction
    rw [heq, hcaller'] at hcaller
    rw [heq, hpair'] at hpair
    subst hfunction hcaller
    rw [lexicographic_inj hpair]
  · obtain ⟨l₀, hl₀, rfl⟩ := List.mem_map.mp hl
    obtain ⟨a, b, c, hP, rfl⟩ := (hmem l₀).mp hl₀
    exact ⟨a, b, c, rfl, habout a b c hP⟩

/-- The lines of a report are about functions and callers of the text. -/
theorem Report.madeOf (h : Report text out) (hsize : (blocks text).length < 2 ^ 31) :
    ∃ line, MadeOf (blocks text) out line := by
  have hnames : ∀ (D : Database String String) a b c, (bugLine D a b c).function = a ∧
      (bugLine D a b c).caller = c ∧ (bugLine D a b c).pair = lexicographic a b :=
    fun _ _ _ _ => ⟨rfl, rfl, rfl⟩
  have hsite : ∀ {s : Int} {t : ℚ} (a b c : String),
      (siteDatabase (blocks text)).Violation s t a b c → About (blocks text) a b c :=
    fun a b c hviol => about_of_violation hviol fun _ _ hc => called_of_callersOf hc
  cases h with
  | @partA ord s c hout =>
    rw [Doubles.partA_eq_rounded hsize, PartA.main_eq_run] at hout
    exact ⟨_, .of_prints (PartA.run_prints ord (blocks text) s _) (hnames _) hsite hout⟩
  | @counting ord s c hout =>
    rw [Counting.Rounded.main_eq_rounded ord hsize, Counting.main_eq_run] at hout
    refine ⟨_, .of_prints (Counting.run_prints_nodes ord (blocks text) s _)
      (fun _ _ _ => ⟨rfl, rfl, rfl⟩) (fun a b c hviol => ?_) hout⟩
    -- a node with both is one of the nodes
    obtain ⟨node, hnode, hboth⟩ := List.countP_pos_iff.mp (Nat.pos_of_ne_zero hviol.occurs)
    obtain ⟨ha, hb⟩ := of_decide_eq_true hboth
    exact ⟨⟨node.caller, mem_sites.mpr ⟨node, hnode, rfl, ha⟩⟩,
      ⟨node.caller, mem_sites.mpr ⟨node, hnode, rfl, hb⟩⟩, (called_of_callersOf hviol.mem).2⟩
  | @search ord search e s c hout =>
    rw [Doubles.search_eq_rounded hsize, PartC.main_eq_run] at hout
    have hprints := PartC.run_prints ord search e (blocks text) s (c / 100)
    simp only [← and_assoc] at hprints
    exact ⟨_, .of_prints hprints (hnames _) (fun a b c h => hsite a b c h.1) hout⟩
  | @expand ord expand e s c hout =>
    rw [Doubles.expand_eq_rounded hsize] at hout
    obtain ⟨exact, hrun, -⟩ := Loop.exists_of_map_ok hout
    obtain ⟨D, hD, hprints⟩ := PartC.Expand.prints_of_main_ok hrun
    refine ⟨_, .of_prints hprints (hnames D) (fun a b c hviol => ?_) hout⟩
    refine about_of_violation hviol fun a c hc => ?_
    obtain ⟨hc, f, hcall⟩ := hD a c hc
    exact called_of_keySet hc hcall
  | @setExpand ord expand s c hout =>
    rw [Doubles.setExpand_eq_rounded hsize] at hout
    refine ⟨_, .of_prints (PartC.SetExpand.main_prints_near ord expand text s _) (hnames _)
      (fun a b c hviol => about_of_violation hviol fun a c hc => ?_) hout⟩
    rcases Finset.mem_union.mp hc with hc | hc
    · exact called_of_callersOf hc
    · classical
      obtain ⟨hc, k, hk, -, hw⟩ := Finset.mem_filter.mp hc
      obtain ⟨k, rfl⟩ := Nat.exists_eq_add_of_le' hk
      obtain ⟨f, -, hcall⟩ := Walk.succ_iff.mp hw
      exact called_of_keySet hc hcall

theorem MadeOf.worded {line : String → String → String → BugLine} (hmade : MadeOf bs out line)
    (h : Worded bs) {l : BugLine} (hl : l ∈ out) : l.Worded := by
  obtain ⟨a, b, c, rfl, ⟨f, hf⟩, ⟨g, hg⟩, node, hnode, rfl⟩ := hmade.about l hl
  have hname : ∀ {x f : String}, f ∈ callersOf bs x → IsWord x := by
    intro x f hf
    obtain ⟨node, hnode, -, hx⟩ := mem_sites.mp hf
    exact (h node hnode).2 x hx
  obtain ⟨hfunction, hcaller, hpair⟩ := hmade.names a b node.caller
  have hnames : IsWord (lexicographic a b).1 ∧ IsWord (lexicographic a b).2 := by
    rcases lexicographic_cases a b with hlex | hlex
    · rw [hlex]
      exact ⟨hname hf, hname hg⟩
    · rw [hlex]
      exact ⟨hname hg, hname hf⟩
  refine ⟨?_, ?_, ?_, ?_⟩
  · rw [hfunction]
    exact hname hf
  · rw [hcaller]
    exact (h node hnode).1
  · rw [hpair]
    exact hnames.1
  · rw [hpair]
    exact hnames.2

end Report

/--
**Comparing texts.** Let the text have no function with a blank in its name and fewer than
`2 ^ 31` nodes, and let one of the programs that key `location` by sets, the counting one included,
print the lines `out` for it, with whatever support, whole percentage, level and orders. The
percentages are written in any decimal notation.

1. No two of the lines have the same text.
2. Take any lines `gold` without blanks in their names. The texts of `out` and of `gold` are the
   same up to their order exactly when the lines are, with the confidences in the hundredths of a
   percent that are printed.
-/
theorem main_texts_perm_iff {text : List Char} (h : Worded (blocks text))
    (hsize : (blocks text).length < 2 ^ 31) {out : List BugLine} (hout : Report text out)
    (decimal : ℚ → ℚ) :
    (out.map (Doubles.text decimal)).Nodup ∧
    ∀ gold : List BugLine, (∀ line ∈ gold, line.Worded) →
      ((out.map (Doubles.text decimal)).Perm (gold.map (Doubles.text decimal)) ↔
        (out.map (BugLine.shown decimal)).Perm (gold.map (BugLine.shown decimal))) := by
  obtain ⟨line, hmade⟩ := hout.madeOf hsize
  have hworded : ∀ l ∈ out, l.Worded := fun l hl => hmade.worded h hl
  constructor
  · refine hmade.nodup.map_on fun l hl l' hl' heq => ?_
    have hshown := (text_inj (hworded l hl) (hworded l' hl')).mp heq
    simp only [BugLine.shown, Shown.mk.injEq] at hshown
    obtain ⟨hfunction, hcaller, hpair, -, -⟩ := hshown
    -- the lines of one run differ in function, caller or pair
    obtain ⟨a, b, c, rfl, -⟩ := hmade.about l hl
    obtain ⟨a', b', c', rfl, -⟩ := hmade.about l' hl'
    rw [(hmade.names ..).1, (hmade.names ..).1] at hfunction
    rw [(hmade.names ..).2.1, (hmade.names ..).2.1] at hcaller
    rw [(hmade.names ..).2.2, (hmade.names ..).2.2] at hpair
    subst hfunction hcaller
    rw [lexicographic_inj hpair]
  · intro gold hgold
    have hall : ∀ l ∈ out ++ gold, l.Worded := fun l hl =>
      (List.mem_append.mp hl).elim (hworded l) (hgold l)
    exact perm_map_iff fun l hl l' hl' => text_inj (hall l hl) (hall l' hl')

/-- Two callers of `A`, one of which calls `B` too. -/
def withAndWithout : List Char := "Call'f'\n'A'\n'B'\n\nCall'g'\n'A'\n".toList

theorem main_texts_perm_iff_withAndWithout :
    ∃ out, Counting.Rounded.main default withAndWithout 1 50 = .ok out ∧
      (out.map (Doubles.text id)).Nodup := by
  obtain ⟨exact, hexact, -⟩ :=
    Counting.run_prints_nodes default (blocks withAndWithout) 1 ((50 : ℤ) / 100)
  have hout : Counting.Rounded.main default withAndWithout 1 (50 : ℤ) =
      .ok (exact.map rounded) := by
    rw [Counting.Rounded.main_eq_rounded default (by decide +kernel),
      Counting.main_eq_run, hexact]
    rfl
  exact ⟨_, hout,
    (main_texts_perm_iff (by decide +kernel) (by decide +kernel) (.counting hout) id).1⟩

end Pipair
