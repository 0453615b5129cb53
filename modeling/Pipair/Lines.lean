import Pipair.Scan

/-!
# Reading line by line

`Lines ls text` says what the lines of a text are, without reference to the
scanner: each but possibly the last is followed by one of the line terminators of
the Java API. `Lines.nextLine` relates it to the scanner.

The loops are then described by the lines they read: `scanLoop_skip` for what is
not a header, and `scanLoop_block` for a header and what follows up to an empty
line or the end. The guard `hasNext` looks for a token and not for a line; where it
ends a loop, only blanks and line ends are left, and they say nothing.
-/

namespace Pipair

-- ---------------------------------------------------------------------------
-- Lines
-- ---------------------------------------------------------------------------

/-- The characters that end a line by themselves. -/
def lineEnds : List Char := ['\n', '\r', '\u0085', '\u2028', '\u2029']

/-- A line terminator in front of the text `rest`: carriage return and line feed together
are one, and so is any other line end. -/
inductive LineEnd : List Char → List Char → Prop
  | crlf {rest : List Char} : LineEnd ['\r', '\n'] rest
  | single {c : Char} {rest : List Char} :
      c ∈ lineEnds → (c = '\r' → rest.head? ≠ some '\n') → LineEnd [c] rest

theorem isLineEnd_of_mem {c : Char} (h : c ∈ lineEnds) : isLineEnd c = true := by
  have hall : lineEnds.all isLineEnd = true := by decide
  exact List.all_eq_true.mp hall c h

/-- A text without a line end. -/
def OneLine (l : List Char) : Prop := ∀ c ∈ l, isLineEnd c = false

instance (l : List Char) : Decidable (OneLine l) :=
  List.decidableBAll (fun c => isLineEnd c = false) l

theorem oneLine_append {l m : List Char} : OneLine (l ++ m) ↔ OneLine l ∧ OneLine m :=
  List.forall_mem_append

theorem oneLine_cons {c : Char} {l : List Char} :
    OneLine (c :: l) ↔ isLineEnd c = false ∧ OneLine l :=
  List.forall_mem_cons

/-- The lines of a text. -/
inductive Lines : List (List Char) → List Char → Prop
  | nil : Lines [] []
  | last {l : List Char} : l ≠ [] → OneLine l → Lines [l] l
  | cons {l : List Char} {ls : List (List Char)} {terminator text : List Char} :
      OneLine l → LineEnd terminator text → Lines ls text →
      Lines (l :: ls) (l ++ (terminator ++ text))

/-- A text with a line feed behind each of its lines. -/
theorem lines_flatMap {ls : List (List Char)} (h : ∀ l ∈ ls, OneLine l) :
    Lines ls (ls.flatMap fun l => l ++ ['\n']) := by
  induction ls with
  | nil => exact .nil
  | cons l ls ih =>
    rw [List.flatMap_cons, List.append_assoc]
    have hend : LineEnd ['\n'] (ls.flatMap fun l => l ++ ['\n']) :=
      .single (by decide) fun hcr => absurd hcr (by decide)
    exact .cons (h l (List.mem_cons_self ..)) hend
      (ih fun l' hl' => h l' (List.mem_cons_of_mem _ hl'))

theorem nextLine_last {l : List Char} (h : OneLine l) : nextLine l = (l, []) := by
  induction l with
  | nil => rfl
  | cons c l ih =>
    have hl : OneLine l := fun d hd => h d (List.mem_cons_of_mem _ hd)
    have hc : ¬ isLineEnd c = true := by simp [h c (List.mem_cons_self ..)]
    rw [nextLine, if_neg hc, ih hl]

theorem nextLine_terminator {terminator text : List Char} (h : LineEnd terminator text) :
    nextLine (terminator ++ text) = ([], text) := by
  cases h with
  | crlf =>
    rw [List.cons_append, nextLine, if_pos (by decide)]
    rfl
  | @single c _ hc hcr =>
    rw [List.singleton_append, nextLine, if_pos (isLineEnd_of_mem hc)]
    cases text with
    | nil => rfl
    | cons d text =>
      -- the two characters are not one line end
      have hnot : ¬ (c.toNat = 0x0D ∧ d.toNat = 0x0A) := by
        rintro ⟨h1, h2⟩
        have hc' : c = '\r' := Char.toNat_inj.mp h1
        have hd' : d = '\n' := Char.toNat_inj.mp h2
        exact hcr hc' (by rw [hd', List.head?_cons])
      rw [afterLineEnd, if_neg hnot]

theorem nextLine_append {l terminator text : List Char} (hl : OneLine l)
    (h : LineEnd terminator text) : nextLine (l ++ (terminator ++ text)) = (l, text) := by
  induction l with
  | nil => exact nextLine_terminator h
  | cons c l ih =>
    have hl' : OneLine l := fun d hd => hl d (List.mem_cons_of_mem _ hd)
    have hc : ¬ isLineEnd c = true := by simp [hl c (List.mem_cons_self ..)]
    rw [List.cons_append, nextLine, if_neg hc, ih hl']

/-- **The scanner reads the first line.** -/
theorem Lines.nextLine {l : List Char} {ls : List (List Char)} {text : List Char}
    (h : Lines (l :: ls) text) :
    ∃ rest, Pipair.nextLine text = (l, rest) ∧ Lines ls rest ∧ l ⊆ text ∧ rest ⊆ text := by
  cases h with
  | last hne hl => exact ⟨[], nextLine_last hl, .nil, by simp, by simp⟩
  | @cons _ _ _ rest hl hend hrest =>
    exact ⟨rest, nextLine_append hl hend, hrest, by simp, fun c hc => by simp [hc]⟩

-- ---------------------------------------------------------------------------
-- The guard
-- ---------------------------------------------------------------------------

theorem hasNext_mono {s t : List Char} (hst : s ⊆ t) (h : hasNext s = true) : hasNext t = true := by
  rw [hasNext, List.any_eq_true] at h ⊢
  obtain ⟨c, hc, hblank⟩ := h
  exact ⟨c, hst hc, hblank⟩

/-- Without a token left, the loop over the text has ended. -/
theorem scanLoop_of_not_hasNext {σ : Type} {A : Actions σ} {text : List Char} {st : σ}
    (h : ¬ hasNext text = true) : scanLoop A text st = st := by
  rw [scanLoop, if_neg h]

-- ---------------------------------------------------------------------------
-- The loops
-- ---------------------------------------------------------------------------

section Loops

variable {l : List Char} {ls : List (List Char)} {text : List Char}

/-- A line that is no header is read over. -/
theorem scanLoop_skip (h : Lines (l :: ls) text) (hl : group1 callerPattern l = none) :
    ∃ rest, Lines ls rest ∧ ∀ {σ : Type} (A : Actions σ) (st : σ),
      scanLoop A text st = scanLoop A rest st := by
  obtain ⟨rest, hnext, hrest, -, hsub⟩ := h.nextLine
  refine ⟨rest, hrest, fun A st => ?_⟩
  by_cases htoken : hasNext text = true
  · rw [scanLoop, if_pos htoken]
    simp only [hnext, hl]
  · -- nor is there a token behind the line
    rw [scanLoop_of_not_hasNext htoken,
      scanLoop_of_not_hasNext fun hnot => htoken (hasNext_mono hsub hnot)]

theorem scanLoop_skip_all {skipped : List (List Char)} (h : Lines (skipped ++ ls) text)
    (hskip : ∀ l ∈ skipped, group1 callerPattern l = none) :
    ∃ rest, Lines ls rest ∧ ∀ {σ : Type} (A : Actions σ) (st : σ),
      scanLoop A text st = scanLoop A rest st := by
  induction skipped generalizing text with
  | nil => exact ⟨text, h, fun _ _ => rfl⟩
  | cons l skipped ih =>
    obtain ⟨rest, hrest, heq⟩ := scanLoop_skip h (hskip l (List.mem_cons_self ..))
    obtain ⟨rest', hrest', heq'⟩ := ih hrest fun l' hl' => hskip l' (List.mem_cons_of_mem _ hl')
    exact ⟨rest', hrest', fun A st => (heq A st).trans (heq' A st)⟩

/-- The lines of a block are read one after the other, and each with a quoted name is a
callee line. -/
theorem calleeLoop_lines {body : List (List Char)} (h : Lines (body ++ ls) text)
    (hbody : ∀ l ∈ body, hasNext l = true) :
    ∃ rest, Lines ls rest ∧ ∀ {σ : Type} (A : Actions σ) (caller : String) (st : σ),
      calleeLoop A caller text st = calleeLoop A caller rest
        ((body.filterMap (group1 calleePattern)).foldl
          (fun st callee => A.callee st callee caller) st) := by
  induction body generalizing text with
  | nil => exact ⟨text, h, fun _ _ _ => rfl⟩
  | cons l body ih =>
    obtain ⟨rest, hnext, hrest, hsub, -⟩ := Lines.nextLine h
    obtain ⟨rest', hrest', heq⟩ := ih hrest fun l' hl' => hbody l' (List.mem_cons_of_mem _ hl')
    have htoken := hbody l (List.mem_cons_self ..)
    have hne : ¬ l.length = 0 := by
      intro hlen
      rw [List.length_eq_zero_iff.mp hlen] at htoken
      exact absurd htoken (by decide)
    refine ⟨rest', hrest', fun A caller st => ?_⟩
    rw [calleeLoop, if_pos (hasNext_mono hsub htoken)]
    simp only [hnext, if_neg hne]
    cases hg : group1 calleePattern l with
    | none =>
      rw [List.filterMap_cons_none hg]
      exact heq A caller st
    | some callee =>
      rw [List.filterMap_cons_some hg, List.foldl_cons]
      exact heq A caller (A.callee st callee caller)

/-- The block ends with an empty line or with the text. What the inner loop leaves is to the
outer one what stands behind that line. -/
theorem calleeLoop_end (h : Lines ls text) (hend : ∀ l ∈ ls.head?, l = []) :
    ∃ rest, Lines ls.tail rest ∧
      ∀ {σ : Type} (A : Actions σ) (caller : String) (st st' : σ),
        (calleeLoop A caller text st).1 = st ∧
          scanLoop A (calleeLoop A caller text st).2 st' = scanLoop A rest st' := by
  cases ls with
  | nil =>
    cases h
    refine ⟨[], .nil, fun A caller st st' => ?_⟩
    rw [calleeLoop, if_neg (by decide)]
    exact ⟨rfl, rfl⟩
  | cons l ls =>
    obtain rfl : l = [] := hend l rfl
    obtain ⟨rest, hnext, hrest, -, hsub⟩ := Lines.nextLine h
    refine ⟨rest, hrest, fun A caller st st' => ?_⟩
    rw [calleeLoop]
    by_cases htoken : hasNext text = true
    · rw [if_pos htoken]
      simp only [hnext]
      exact ⟨rfl, rfl⟩
    · rw [if_neg htoken, scanLoop_of_not_hasNext htoken,
        scanLoop_of_not_hasNext fun hnot => htoken (hasNext_mono hsub hnot)]
      exact ⟨rfl, rfl⟩

/-- **A block**: a header line, the lines up to an empty one or the end, and that. -/
theorem scanLoop_block {body : List (List Char)} {caller : String}
    (h : Lines (l :: (body ++ ls)) text) (hl : hasNext l = true)
    (hcaller : group1 callerPattern l = some caller) (hbody : ∀ l ∈ body, hasNext l = true)
    (hend : ∀ l ∈ ls.head?, l = []) :
    ∃ rest, Lines ls.tail rest ∧ ∀ {σ : Type} (A : Actions σ) (st : σ),
      scanLoop A text st =
        scanLoop A rest (A.runBlock st ⟨caller, body.filterMap (group1 calleePattern)⟩) := by
  obtain ⟨text₁, hnext, h₁, hsub, -⟩ := h.nextLine
  obtain ⟨text₂, h₂, hlines⟩ := calleeLoop_lines h₁ hbody
  obtain ⟨rest, hrest, hafter⟩ := calleeLoop_end h₂ hend
  refine ⟨rest, hrest, fun A st => ?_⟩
  rw [scanLoop, if_pos (hasNext_mono hsub hl)]
  simp only [hnext, hcaller, hlines A caller (A.header st)]
  rw [(hafter A caller _ (A.header st)).1, (hafter A caller _ _).2]
  rfl

end Loops

end Pipair
