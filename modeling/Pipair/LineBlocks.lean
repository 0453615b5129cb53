import Pipair.Lines

/-!
# The blocks of any text

The scan loops read lines and ask for tokens: they end when only blanks and line
ends are left, also in the middle of a block. `blocksOfLines` says what the blocks
of a list of lines are, with no loop and no tokens: a header line, and the quoted
names of the lines behind it up to the first empty one.

For every text this is what any of the programs reads (`scanLoop_lines`). So it
does not matter how the lines are ended, and reading two texts with an empty line
between them is reading one after the other (`scanLoop_append`).
-/

namespace Pipair

-- ---------------------------------------------------------------------------
-- The lines of a text
-- ---------------------------------------------------------------------------

/-- The lines of a text, one after the other. -/
def linesOf : List Char → List (List Char)
  | [] => []
  | c :: text => (nextLine (c :: text)).1 :: linesOf (nextLine (c :: text)).2
termination_by text => text.length
decreasing_by
  rw [nextLine]
  split
  · exact Nat.lt_succ_of_le (afterLineEnd_length c text)
  · exact Nat.lt_succ_of_le (nextLine_length_le text)

theorem mem_lineEnds {c : Char} (h : isLineEnd c = true) : c ∈ lineEnds := by
  have hall : ∀ n ∈ [0x0A, 0x0D, 0x85, 0x2028, 0x2029], Char.ofNat n ∈ lineEnds := by decide
  have hn : c.toNat ∈ [0x0A, 0x0D, 0x85, 0x2028, 0x2029] := by
    simpa [isLineEnd, or_assoc] using h
  simpa using hall _ hn

/-- The text behind a line end begins behind a line terminator. -/
theorem exists_lineEnd {c : Char} (h : isLineEnd c = true) (text : List Char) :
    ∃ terminator, LineEnd terminator (afterLineEnd c text) ∧
      c :: text = terminator ++ afterLineEnd c text := by
  have hmem := mem_lineEnds h
  cases text with
  | nil => exact ⟨[c], .single hmem (by simp [afterLineEnd]), rfl⟩
  | cons d text =>
    rw [afterLineEnd]
    -- carriage return and line feed are taken together
    split
    · next hcrlf =>
      obtain ⟨hc, hd⟩ := hcrlf
      obtain rfl : c = '\r' := Char.toNat_inj.mp hc
      obtain rfl : d = '\n' := Char.toNat_inj.mp hd
      exact ⟨_, .crlf, rfl⟩
    · next hcrlf =>
      refine ⟨[c], .single hmem ?_, rfl⟩
      rintro rfl hd
      obtain rfl : d = '\n' := by simpa using hd
      exact hcrlf ⟨rfl, rfl⟩

/-- **Every text has lines.** -/
theorem exists_lines (text : List Char) : ∃ ls, Lines ls text := by
  induction hn : text.length using Nat.strongRecOn generalizing text with
  | _ n ih =>
    cases text with
    | nil => exact ⟨[], .nil⟩
    | cons c text =>
      subst hn
      by_cases hc : isLineEnd c = true
      · obtain ⟨terminator, hend, heq⟩ := exists_lineEnd hc text
        obtain ⟨ls, hls⟩ :=
          ih _ (Nat.lt_succ_of_le (afterLineEnd_length c text)) (afterLineEnd c text) rfl
        exact ⟨[] :: ls, heq ▸ .cons (by simp [OneLine]) hend hls⟩
      · -- the character goes in front of the first line of the rest
        have hc : isLineEnd c = false := by simpa using hc
        obtain ⟨ls, hls⟩ := ih text.length (Nat.lt_succ_self _) text rfl
        cases hls with
        | nil => exact ⟨[[c]], .last (by simp) (oneLine_cons.mpr ⟨hc, by simp [OneLine]⟩)⟩
        | last _ hl => exact ⟨[c :: text], .last (by simp) (oneLine_cons.mpr ⟨hc, hl⟩)⟩
        | @cons l ls _ _ hl hend hrest =>
          exact ⟨(c :: l) :: ls, .cons (oneLine_cons.mpr ⟨hc, hl⟩) hend hrest⟩

theorem LineEnd.ne_nil {terminator text : List Char} (h : LineEnd terminator text) :
    terminator ≠ [] := by
  cases h <;> simp

theorem Lines.eq_nil {ls : List (List Char)} (h : Lines ls []) : ls = [] := by
  generalize htext : ([] : List Char) = text at h
  cases h with
  | nil => rfl
  | last hne => exact absurd htext.symm hne
  | cons _ hend => simp [hend.ne_nil] at htext

/-- **And only these.** -/
theorem lines_iff {ls : List (List Char)} {text : List Char} :
    Lines ls text ↔ ls = linesOf text := by
  have hunique : ∀ {ls : List (List Char)} {text : List Char}, Lines ls text →
      ls = linesOf text := by
    intro ls
    induction ls with
    | nil =>
      intro text h
      cases h
      rw [linesOf]
    | cons l ls ih =>
      intro text h
      obtain ⟨rest, hnext, hrest, -⟩ := Lines.nextLine h
      cases text with
      | nil => exact absurd h.eq_nil (by simp)
      | cons c text => rw [linesOf, hnext, ← ih hrest]
  refine ⟨hunique, ?_⟩
  rintro rfl
  obtain ⟨ls, hls⟩ := exists_lines text
  exact hunique hls ▸ hls

-- ---------------------------------------------------------------------------
-- The blocks of lines
-- ---------------------------------------------------------------------------

/-- The lines before the first empty one. -/
def untilEmpty (ls : List (List Char)) : List (List Char) := ls.takeWhile (!·.isEmpty)

/-- The first empty line and those behind it. -/
def fromEmpty (ls : List (List Char)) : List (List Char) := ls.dropWhile (!·.isEmpty)

@[simp] theorem untilEmpty_cons {l : List Char} {ls : List (List Char)} (hl : l ≠ []) :
    untilEmpty (l :: ls) = l :: untilEmpty ls :=
  List.takeWhile_cons_of_pos (by simpa using hl)

@[simp] theorem fromEmpty_cons {l : List Char} {ls : List (List Char)} (hl : l ≠ []) :
    fromEmpty (l :: ls) = fromEmpty ls :=
  List.dropWhile_cons_of_pos (by simpa using hl)

theorem fromEmpty_length (ls : List (List Char)) : (fromEmpty ls).length ≤ ls.length :=
  (List.dropWhile_suffix _).length_le

/-- The blocks of a list of lines. -/
def blocksOfLines : List (List Char) → List Block
  | [] => []
  | l :: ls =>
    match group1 callerPattern l with
    | some caller =>
      ⟨caller, (untilEmpty ls).filterMap (group1 calleePattern)⟩ :: blocksOfLines (fromEmpty ls)
    | none => blocksOfLines ls
termination_by ls => ls.length
decreasing_by
  · exact Nat.lt_succ_of_le (fromEmpty_length ls)
  · exact Nat.lt_succ_self _

section BlocksOfLines

variable {l : List Char} {ls : List (List Char)} {text : List Char}

theorem blocksOfLines_cons_none (h : group1 callerPattern l = none) :
    blocksOfLines (l :: ls) = blocksOfLines ls := by
  rw [blocksOfLines, h]

theorem blocksOfLines_cons_some {caller : String} (h : group1 callerPattern l = some caller) :
    blocksOfLines (l :: ls) =
      ⟨caller, (untilEmpty ls).filterMap (group1 calleePattern)⟩ ::
        blocksOfLines (fromEmpty ls) := by
  rw [blocksOfLines, h]

theorem group1_callerPattern_empty : group1 callerPattern [] = none := rfl

/-- A line without tokens is no header, -/
theorem group1_callerPattern_blank (h : ¬ hasNext l = true) : group1 callerPattern l = none := by
  cases hs : Pattern.captures callerPattern l with
  | none => rw [group1, hs]
  | some gs =>
    obtain ⟨s, rfl, -⟩ := Pattern.exists_of_captures_literal hs
    have hcall : hasNext "Call".toList = true := by decide
    exact absurd (hasNext_mono (List.subset_append_left _ _) hcall) h

/-- and has no quoted name. -/
theorem group1_calleePattern_blank (h : ¬ hasNext l = true) : group1 calleePattern l = none := by
  have hquote : quote ∉ l := fun hmem =>
    h (hasNext_mono (s := [quote]) (by simpa using hmem) (by decide))
  have hnone : Pattern.captures calleePattern l = none :=
    Pattern.captures_between_eq_none (by rw [List.count_eq_zero.mpr hquote]; omega)
  rw [group1, hnone]

theorem Lines.subset (h : Lines ls text) : ∀ l ∈ ls, l ⊆ text := by
  induction h with
  | nil => simp
  | last => simp
  | cons _ _ _ ih =>
    intro l hl
    rcases List.mem_cons.mp hl with rfl | hl
    · exact List.subset_append_left _ _
    · intro c hc
      simp [ih l hl hc]

/-- Where no token is left, there is no header, -/
theorem blocksOfLines_blank (h : ∀ l ∈ ls, ¬ hasNext l = true) : blocksOfLines ls = [] := by
  induction ls with
  | nil => rw [blocksOfLines]
  | cons l ls ih =>
    rw [blocksOfLines_cons_none (group1_callerPattern_blank (h l (List.mem_cons_self ..))),
      ih fun l' hl' => h l' (List.mem_cons_of_mem _ hl')]

/-- **The inner loop** reads the quoted names up to the first empty line; as blocks, the
lines that it leaves are those from there on. -/
theorem calleeLoop_untilEmpty (h : Lines ls text) :
    ∃ ls' rest, Lines ls' rest ∧ blocksOfLines ls' = blocksOfLines (fromEmpty ls) ∧
      ∀ {σ : Type} (A : Actions σ) (caller : String) (st : σ),
        calleeLoop A caller text st =
          (((untilEmpty ls).filterMap (group1 calleePattern)).foldl
            (fun st callee => A.callee st callee caller) st, rest) := by
  induction ls generalizing text with
  | nil =>
    refine ⟨[], text, h, rfl, fun A caller st => ?_⟩
    cases h
    rw [calleeLoop, if_neg (by decide)]
    rfl
  | cons l ls ih =>
    obtain ⟨rest, hnext, hrest, -, -⟩ := Lines.nextLine h
    by_cases htoken : hasNext text = true
    · by_cases hl : l = []
      · -- `break`
        subst hl
        refine ⟨ls, rest, hrest, ?_, fun A caller st => ?_⟩
        · exact (blocksOfLines_cons_none group1_callerPattern_empty).symm
        · rw [calleeLoop, if_pos htoken]
          simp only [hnext]
          rfl
      · obtain ⟨ls', rest', hrest', hblocks, heq⟩ := ih hrest
        refine ⟨ls', rest', hrest', by rw [hblocks, fromEmpty_cons hl], fun A caller st => ?_⟩
        rw [calleeLoop, if_pos htoken, untilEmpty_cons hl]
        simp only [hnext, if_neg (fun hlen => hl (List.length_eq_zero_iff.mp hlen))]
        cases hg : group1 calleePattern l with
        | none =>
          rw [List.filterMap_cons_none hg]
          exact heq A caller st
        | some callee =>
          rw [List.filterMap_cons_some hg, List.foldl_cons]
          exact heq A caller (A.callee st callee caller)
    · -- the tokens end inside the block: the lines left say nothing
      have hblank : ∀ l' ∈ l :: ls, ¬ hasNext l' = true := fun l' hl' hnot =>
        htoken (hasNext_mono (h.subset l' hl') hnot)
      have hfrom : ∀ l' ∈ fromEmpty (l :: ls), ¬ hasNext l' = true := fun l' hl' =>
        hblank l' ((List.dropWhile_suffix _).subset hl')
      have hnone : (untilEmpty (l :: ls)).filterMap (group1 calleePattern) = [] := by
        rw [List.filterMap_eq_nil_iff]
        intro l' hl'
        exact group1_calleePattern_blank
          (hblank l' ((List.takeWhile_prefix _).subset hl'))
      refine ⟨l :: ls, text, h, ?_, fun A caller st => ?_⟩
      · rw [blocksOfLines_blank hblank, blocksOfLines_blank hfrom]
      · rw [calleeLoop, if_neg htoken, hnone]
        rfl

/-- **The outer loop** runs over the blocks of the lines. -/
theorem scanLoop_blocksOfLines (h : Lines ls text) {σ : Type} (A : Actions σ) (st : σ) :
    scanLoop A text st = (blocksOfLines ls).foldl A.runBlock st := by
  induction hn : text.length using Nat.strongRecOn generalizing ls text st with
  | _ n ih =>
    by_cases htoken : hasNext text = true
    · cases ls with
      | nil =>
        cases h
        exact absurd htoken (by decide)
      | cons l ls =>
        obtain ⟨rest, hnext, hrest, -, -⟩ := Lines.nextLine h
        have hlt : rest.length < text.length := by
          have := nextLine_length htoken
          rwa [hnext] at this
        rw [scanLoop, if_pos htoken]
        simp only [hnext]
        cases hg : group1 callerPattern l with
        | none =>
          rw [blocksOfLines_cons_none hg]
          exact ih _ (hn ▸ hlt) hrest st rfl
        | some caller =>
          obtain ⟨ls', rest', hrest', hblocks, heq⟩ := calleeLoop_untilEmpty hrest
          have hlen : rest'.length ≤ rest.length := by
            have := calleeLoop_length A caller rest (A.header st)
            rwa [heq] at this
          rw [blocksOfLines_cons_some hg, List.foldl_cons, ← hblocks]
          simp only [heq]
          exact ih rest'.length (by omega) hrest' _ rfl
    · have hblank : ∀ l ∈ ls, ¬ hasNext l = true := fun l hl hnot =>
        htoken (hasNext_mono (h.subset l hl) hnot)
      rw [scanLoop_of_not_hasNext htoken, blocksOfLines_blank hblank]
      rfl

end BlocksOfLines

theorem scanLoop_linesOf {σ : Type} (A : Actions σ) (text : List Char) (st : σ) :
    scanLoop A text st = (blocksOfLines (linesOf text)).foldl A.runBlock st :=
  scanLoop_blocksOfLines (lines_iff.mpr rfl) A st

theorem blocks_linesOf (text : List Char) : blocks text = blocksOfLines (linesOf text) := by
  rw [blocks, scanLoop_linesOf, foldl_recorder]
  rfl

/--
**What the scan loops read.** Whatever a program does with headers, callee lines and
ends of blocks, and whatever the text:

1. the text has lines, and only one list of them is that of its lines;
2. the loop does what running over the blocks of these lines does, so that it does not
   matter how the lines are ended and where the tokens do;
3. the blocks of the text are the blocks of its lines.
-/
theorem scanLoop_lines {σ : Type} (A : Actions σ) (text : List Char) (st : σ) :
    (∀ ls, Lines ls text ↔ ls = linesOf text) ∧
    scanLoop A text st = (blocksOfLines (linesOf text)).foldl A.runBlock st ∧
    blocks text = blocksOfLines (linesOf text) :=
  ⟨fun _ => lines_iff, scanLoop_linesOf A text st, blocks_linesOf text⟩

-- ---------------------------------------------------------------------------
-- Two texts
-- ---------------------------------------------------------------------------

/-- Two line feeds end the last line of a text, if it was not ended, and put one or two empty
lines behind it. -/
theorem lines_append {ls ls' : List (List Char)} {text text' : List Char} (h : Lines ls text)
    (h' : Lines ls' text') :
    ∃ n, Lines (ls ++ [] :: (List.replicate n [] ++ ls')) (text ++ '\n' :: '\n' :: text') := by
  have hfeed : ∀ text : List Char, LineEnd ['\n'] text := fun text =>
    .single (by decide) fun hcr => absurd hcr (by decide)
  have hempty : OneLine [] := by simp [OneLine]
  have hone : Lines ([] :: ls') ('\n' :: text') := .cons hempty (hfeed text') h'
  have htwo : Lines ([] :: [] :: ls') ('\n' :: '\n' :: text') := .cons hempty (hfeed _) hone
  induction h with
  | nil => exact ⟨1, htwo⟩
  | @last l _ hl =>
    have hlast : Lines (l :: [] :: ls') (l ++ (['\n'] ++ '\n' :: text')) :=
      .cons hl (hfeed _) hone
    exact ⟨0, hlast⟩
  | @cons l ls terminator text hl hend hrest ih =>
    obtain ⟨n, hn⟩ := ih
    rw [List.append_assoc, List.append_assoc]
    cases hend with
    | crlf => exact ⟨n, .cons hl .crlf hn⟩
    | @single c _ hc hcr =>
      by_cases hjoin : c = '\r' ∧ text = []
      · -- the carriage return and the first line feed are one line end
        obtain ⟨rfl, rfl⟩ := hjoin
        obtain rfl := hrest.eq_nil
        have hjoined : Lines (l :: [] :: ls') (l ++ (['\r', '\n'] ++ '\n' :: text')) :=
          .cons hl .crlf hone
        exact ⟨0, hjoined⟩
      · refine ⟨n, .cons hl (.single hc fun hcr' => ?_) hn⟩
        cases text with
        | nil => exact absurd ⟨hcr', rfl⟩ hjoin
        | cons d text => exact hcr hcr'

theorem untilEmpty_append (ls ls' : List (List Char)) :
    untilEmpty (ls ++ [] :: ls') = untilEmpty ls := by
  induction ls with
  | nil => rfl
  | cons l ls ih =>
    by_cases hl : l = []
    · rw [hl]
      rfl
    · rw [List.cons_append, untilEmpty_cons hl, untilEmpty_cons hl, ih]

theorem fromEmpty_append (ls ls' : List (List Char)) :
    fromEmpty (ls ++ [] :: ls') = fromEmpty ls ++ [] :: ls' := by
  induction ls with
  | nil => rfl
  | cons l ls ih =>
    by_cases hl : l = []
    · rw [hl]
      rfl
    · rw [List.cons_append, fromEmpty_cons hl, fromEmpty_cons hl, ih]

theorem blocksOfLines_replicate (n : Nat) (ls : List (List Char)) :
    blocksOfLines (List.replicate n [] ++ ls) = blocksOfLines ls := by
  induction n with
  | zero => rfl
  | succ n ih =>
    rw [List.replicate_succ, List.cons_append,
      blocksOfLines_cons_none group1_callerPattern_empty, ih]

/-- No block goes across an empty line. -/
theorem blocksOfLines_append (ls ls' : List (List Char)) :
    blocksOfLines (ls ++ [] :: ls') = blocksOfLines ls ++ blocksOfLines ls' := by
  induction hn : ls.length using Nat.strongRecOn generalizing ls with
  | _ n ih =>
    cases ls with
    | nil =>
      rw [List.nil_append, blocksOfLines_cons_none group1_callerPattern_empty, blocksOfLines]
      rfl
    | cons l ls =>
      subst hn
      rw [List.cons_append]
      cases hg : group1 callerPattern l with
      | none =>
        rw [blocksOfLines_cons_none hg, blocksOfLines_cons_none hg]
        exact ih ls.length (Nat.lt_succ_self _) ls rfl
      | some caller =>
        -- the block ends at the empty line, or before it
        rw [blocksOfLines_cons_some hg, blocksOfLines_cons_some hg, untilEmpty_append,
          fromEmpty_append, ih _ (Nat.lt_succ_of_le (fromEmpty_length ls)) (fromEmpty ls) rfl,
          List.cons_append]

/--
**Reading two texts.** With an empty line between them, whatever stands at the end of the
first one and at the beginning of the second, they are read as one after the other; so the
blocks are those of the first, and then those of the second.
-/
theorem scanLoop_append {σ : Type} (A : Actions σ) (text text' : List Char) (st : σ) :
    scanLoop A (text ++ '\n' :: '\n' :: text') st = scanLoop A text' (scanLoop A text st) ∧
    blocks (text ++ '\n' :: '\n' :: text') = blocks text ++ blocks text' := by
  obtain ⟨n, hn⟩ := lines_append (lines_iff.mpr rfl : Lines (linesOf text) text)
    (lines_iff.mpr rfl : Lines (linesOf text') text')
  have hblocks : blocksOfLines (linesOf text ++ [] :: (List.replicate n [] ++ linesOf text')) =
      blocksOfLines (linesOf text) ++ blocksOfLines (linesOf text') := by
    rw [blocksOfLines_append, blocksOfLines_replicate]
  constructor
  · rw [scanLoop_blocksOfLines hn, hblocks, List.foldl_append, ← scanLoop_linesOf,
      ← scanLoop_linesOf]
  · rw [blocks, scanLoop_blocksOfLines hn, hblocks, foldl_recorder, ← blocks_linesOf,
      ← blocks_linesOf]
    rfl

end Pipair
