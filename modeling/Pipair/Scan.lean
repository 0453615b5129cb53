import Mathlib.Data.Finset.Basic
import Pipair.Library.Pattern

/-!
# Reading a printed call graph

All the programs read the output of `opt -print-callgraph` with the same two
nested loops over one scanner. What differs is what they do at a header, at a
callee line and at the end of a block; `Actions` collects these three, and
`scanLoop` runs them. `scanLoop_eq_blocks` separates the two concerns: the loop
does to the state what running over the blocks of the text does.
-/

namespace Pipair

/-! ## The scanner -/

/-- `Character.isWhitespace`, the delimiters of `Scanner.hasNext`. -/
def isWhitespace (c : Char) : Bool :=
  let n := c.toNat
  (0x09 ≤ n && n ≤ 0x0D) || (0x1C ≤ n && n ≤ 0x20) || n == 0x1680 ||
    (0x2000 ≤ n && n ≤ 0x200A && n != 0x2007) || n == 0x2028 || n == 0x2029 ||
    n == 0x205F || n == 0x3000

/-- The characters that end a line for `Scanner.nextLine`. -/
def isLineEnd (c : Char) : Bool :=
  let n := c.toNat
  n == 0x0A || n == 0x0D || n == 0x85 || n == 0x2028 || n == 0x2029

/-- `scanner.hasNext()`: a token is left in the text. -/
def hasNext (text : List Char) : Bool := text.any fun c => !isWhitespace c

/-- The text after the line end `c`; carriage return and line feed together are
one line end. -/
def afterLineEnd (c : Char) : List Char → List Char
  | [] => []
  | d :: rest => if c.toNat = 0x0D ∧ d.toNat = 0x0A then rest else d :: rest

/-- `scanner.nextLine()`: the next line without its end, and the text after it. -/
def nextLine : List Char → List Char × List Char
  | [] => ([], [])
  | c :: text =>
    if isLineEnd c then ([], afterLineEnd c text)
    else (c :: (nextLine text).1, (nextLine text).2)

theorem afterLineEnd_length (c : Char) (text : List Char) :
    (afterLineEnd c text).length ≤ text.length := by
  cases text with
  | nil => simp [afterLineEnd]
  | cons d rest =>
    rw [afterLineEnd]
    split <;> simp

theorem nextLine_length_le (text : List Char) : (nextLine text).2.length ≤ text.length := by
  induction text with
  | nil => simp [nextLine]
  | cons c text ih =>
    rw [nextLine]
    split
    · exact (afterLineEnd_length c text).trans (by simp)
    · exact ih.trans (by simp)

/-- Every line read leaves less text. -/
theorem nextLine_length {text : List Char} (h : hasNext text = true) :
    (nextLine text).2.length < text.length := by
  cases text with
  | nil => exact absurd h (by simp [hasNext])
  | cons c text =>
    rw [nextLine]
    split
    · exact Nat.lt_succ_of_le (afterLineEnd_length c text)
    · exact Nat.lt_succ_of_le (nextLine_length_le text)

/-! ## The two line patterns -/

/-- The apostrophe. -/
def quote : Char := Char.ofNat 39

/-- `Call.*'(.*)'.*` -/
def callerPattern : List Pattern.Item :=
  Pattern.literal "Call" ++ [.anything, .char quote, .capture, .char quote, .anything]

/-- `.*'(.*)'.*` -/
def calleePattern : List Pattern.Item :=
  [.anything, .char quote, .capture, .char quote, .anything]

/-- `group(1)` when the whole line matches. -/
def group1 (p : List Pattern.Item) (line : List Char) : Option String :=
  match Pattern.captures p line with
  | some (g :: _) => some (String.ofList g)
  | _ => none

/-! ## The loops -/

/-- What a program does while reading: at a header line, at a callee line (with
the callee and the caller) and at the end of a block. -/
structure Actions (σ : Type) where
  header : σ → σ
  callee : σ → String → String → σ
  footer : σ → String → σ

/-- The lines of one block, up to an empty line or the end of the tokens. -/
def calleeLoop {σ : Type} (A : Actions σ) (caller : String) (text : List Char) (st : σ) :
    σ × List Char :=
  if hasNext text then
    let line := (nextLine text).1
    let rest := (nextLine text).2
    -- `break`: the empty line is read, and the block is over
    if line.length = 0 then (st, rest)
    else
      match group1 calleePattern line with
      | some callee => calleeLoop A caller rest (A.callee st callee caller)
      -- a line without a quoted name, as for an external node
      | none => calleeLoop A caller rest st
  else (st, text)
termination_by text.length
decreasing_by
  all_goals exact nextLine_length ‹_›

theorem calleeLoop_length {σ : Type} (A : Actions σ) (caller : String) (text : List Char)
    (st : σ) : (calleeLoop A caller text st).2.length ≤ text.length := by
  induction hn : text.length using Nat.strongRecOn generalizing text st with
  | _ n ih =>
    rw [calleeLoop]
    by_cases hnext : hasNext text = true
    · have hlt := nextLine_length hnext
      rw [if_pos hnext]
      dsimp only
      split
      · show (nextLine text).2.length ≤ n
        omega
      · split
        all_goals exact (ih _ (hn ▸ hlt) _ _ rfl).trans (by omega)
    · rw [if_neg hnext]
      exact hn.le

/-- The loop of `main` over the whole text. -/
def scanLoop {σ : Type} (A : Actions σ) (text : List Char) (st : σ) : σ :=
  if hasNext text then
    let line := (nextLine text).1
    let rest := (nextLine text).2
    match group1 callerPattern line with
    | some caller =>
      let inner := calleeLoop A caller rest (A.header st)
      scanLoop A inner.2 (A.footer inner.1 caller)
    -- not a header, or one of a node without a name
    | none => scanLoop A rest st
  else st
termination_by text.length
decreasing_by
  · exact (calleeLoop_length ..).trans_lt (nextLine_length ‹_›)
  · exact nextLine_length ‹_›

/-! ## Blocks -/

/-- A node of the call graph: a caller and the callees of its lines, in order. -/
structure Block where
  caller : String
  callees : List String
deriving DecidableEq, Repr

/-- What a program does with one block. -/
def Actions.runBlock {σ : Type} (A : Actions σ) (st : σ) (b : Block) : σ :=
  A.footer (b.callees.foldl (fun st callee => A.callee st callee b.caller) (A.header st)) b.caller

/-- The actions that write down the blocks: those complete, and the callees of
the one being read. -/
def recorder : Actions (List Block × List String) where
  header st := (st.1, [])
  callee st callee _ := (st.1, st.2 ++ [callee])
  footer st caller := (st.1 ++ [⟨caller, st.2⟩], st.2)

/-- The blocks of a text. -/
def blocks (text : List Char) : List Block := (scanLoop recorder text ([], [])).1

/-- The lines of a block are found independently of what is done with them. -/
theorem calleeLoop_eq_foldl (text : List Char) :
    ∃ (callees : List String) (rest : List Char),
      ∀ {σ : Type} (A : Actions σ) (caller : String) (st : σ),
        calleeLoop A caller text st =
          (callees.foldl (fun st callee => A.callee st callee caller) st, rest) := by
  induction hn : text.length using Nat.strongRecOn generalizing text with
  | _ n ih =>
    by_cases hnext : hasNext text = true
    · have hlt := nextLine_length hnext
      -- the text alone decides which of the three branches is taken
      by_cases hempty : (nextLine text).1.length = 0
      · refine ⟨[], (nextLine text).2, fun A caller st => ?_⟩
        rw [calleeLoop, if_pos hnext, if_pos hempty]
        rfl
      · obtain ⟨callees, rest, h⟩ := ih _ (hn ▸ hlt) (nextLine text).2 rfl
        cases hg : group1 calleePattern (nextLine text).1 with
        | none =>
          refine ⟨callees, rest, fun A caller st => ?_⟩
          rw [calleeLoop, if_pos hnext, if_neg hempty]
          simp only [hg]
          exact h A caller st
        | some callee =>
          refine ⟨callee :: callees, rest, fun A caller st => ?_⟩
          rw [calleeLoop, if_pos hnext, if_neg hempty]
          simp only [hg]
          exact h A caller (A.callee st callee caller)
    · refine ⟨[], text, fun A caller st => ?_⟩
      rw [calleeLoop, if_neg hnext]
      rfl

/-- The blocks are found independently of what is done with them. -/
theorem scanLoop_eq_foldl (text : List Char) :
    ∃ bs : List Block, ∀ {σ : Type} (A : Actions σ) (st : σ),
      scanLoop A text st = bs.foldl A.runBlock st := by
  induction hn : text.length using Nat.strongRecOn generalizing text with
  | _ n ih =>
    by_cases hnext : hasNext text = true
    · have hlt := nextLine_length hnext
      cases hg : group1 callerPattern (nextLine text).1 with
      | none =>
        obtain ⟨bs, h⟩ := ih _ (hn ▸ hlt) (nextLine text).2 rfl
        refine ⟨bs, fun A st => ?_⟩
        rw [scanLoop, if_pos hnext]
        simp only [hg]
        exact h A st
      | some caller =>
        -- the lines after the header, up to the end of the block, are one block
        obtain ⟨callees, rest, hinner⟩ := calleeLoop_eq_foldl (nextLine text).2
        have hrest : rest.length ≤ (nextLine text).2.length := by
          have := calleeLoop_length recorder caller (nextLine text).2 ([], [])
          rwa [hinner] at this
        obtain ⟨bs, h⟩ := ih _ (by omega) rest rfl
        refine ⟨⟨caller, callees⟩ :: bs, fun A st => ?_⟩
        rw [scanLoop, if_pos hnext]
        simp only [hg, hinner]
        exact h A _
    · refine ⟨[], fun A st => ?_⟩
      rw [scanLoop, if_neg hnext]
      rfl

theorem foldl_recorder (bs : List Block) (st : List Block × List String) :
    (bs.foldl recorder.runBlock st).1 = st.1 ++ bs := by
  -- the callees of a block are collected behind those already there
  have hcallees : ∀ (cs : List String) (caller : String) (s : List Block × List String),
      cs.foldl (fun s callee => recorder.callee s callee caller) s = (s.1, s.2 ++ cs) := by
    intro cs caller
    induction cs with
    | nil => simp
    | cons c cs ih =>
      intro s
      rw [List.foldl_cons, ih]
      simp [recorder]
  induction bs generalizing st with
  | nil => simp
  | cons b bs ih =>
    rw [List.foldl_cons, ih, Actions.runBlock, hcallees]
    simp [recorder]

/-- **The scan loop runs over the blocks of the text.** -/
theorem scanLoop_eq_blocks {σ : Type} (A : Actions σ) (text : List Char) (st : σ) :
    scanLoop A text st = (blocks text).foldl A.runBlock st := by
  obtain ⟨bs, h⟩ := scanLoop_eq_foldl text
  have hbs : blocks text = bs := by
    rw [blocks, h, foldl_recorder]
    rfl
  rw [h, hbs]

end Pipair
