import Pipair.LineBlocks

/-!
# Call graphs written and read

What `blocks` makes of a text can be written as a text again: a header for each node
and a line for each callee, with the names in quotes, and an empty line behind. The
names read are those without quotes and line ends, as the patterns capture what stands
between two quotes of a line.

`read_write` puts the two directions together. A list of nodes is read from some text
exactly when its names are such names, and then it is read from the text written for
it. So every text can be replaced by the one written for its nodes, without a
difference for any of the programs.
-/

namespace Pipair

-- ---------------------------------------------------------------------------
-- The writer
-- ---------------------------------------------------------------------------

/-- What can stand between the quotes of a line. -/
def IsName (s : String) : Prop := quote ∉ s.toList ∧ OneLine s.toList

instance (s : String) : Decidable (IsName s) :=
  inferInstanceAs (Decidable (quote ∉ s.toList ∧ OneLine s.toList))

/-- All functions have names. -/
def Named (bs : List Block) : Prop := ∀ b ∈ bs, IsName b.caller ∧ ∀ f ∈ b.callees, IsName f

def writeHeader (caller : String) : List Char :=
  "Call graph node for function: ".toList ++ quote :: (caller.toList ++ [quote])

def writeCallee (callee : String) : List Char :=
  "  calls function ".toList ++ quote :: (callee.toList ++ [quote])

/-- The lines of some nodes. -/
def writeLines (bs : List Block) : List (List Char) :=
  bs.flatMap fun b => writeHeader b.caller :: (b.callees.map writeCallee ++ [[]])

/-- The text of some nodes. -/
def write (bs : List Block) : List Char := (writeLines bs).flatMap fun l => l ++ ['\n']

-- ---------------------------------------------------------------------------
-- What is read
-- ---------------------------------------------------------------------------

section Read

variable {l : List Char} {ls : List (List Char)} {text : List Char} {name : String}

theorem Lines.oneLine (h : Lines ls text) : ∀ l ∈ ls, OneLine l := by
  induction h with
  | nil => simp
  | last _ hl => simpa using hl
  | cons hl _ _ ih => exact List.forall_mem_cons.mpr ⟨hl, ih⟩

theorem isName_of_between (hl : OneLine l)
    (h : Pattern.captures (Pattern.between quote) l = some [name.toList]) : IsName name := by
  obtain ⟨u, v, w, rfl, hv, hgs⟩ := Pattern.exists_of_captures_between h
  obtain rfl := List.singleton_inj.mp hgs
  have hmid := (oneLine_cons.mp (oneLine_append.mp hl).2).2
  exact ⟨hv, (oneLine_append.mp hmid).1⟩

/-- What the two patterns have in common. -/
theorem between_of_group1 {p : List Pattern.Item}
    (h : group1 p l = some name) (hp : ∀ gs, Pattern.captures p l = some gs →
      ∃ s, (∀ c ∈ s, c ∈ l) ∧ Pattern.captures (Pattern.between quote) s = some gs) :
    ∃ s, (∀ c ∈ s, c ∈ l) ∧
      Pattern.captures (Pattern.between quote) s = some [name.toList] := by
  rw [group1] at h
  split at h
  · next g gs hgs =>
    obtain ⟨s, hs, hbetween⟩ := hp _ hgs
    obtain ⟨u, v, w, -, -, heq⟩ := Pattern.exists_of_captures_between hbetween
    obtain ⟨rfl, rfl⟩ := List.cons.inj heq
    obtain rfl := Option.some.inj h
    exact ⟨s, hs, by rw [hbetween, String.toList_ofList]⟩
  · cases h

theorem isName_of_callee (hl : OneLine l) (h : group1 calleePattern l = some name) :
    IsName name := by
  obtain ⟨s, hs, hbetween⟩ := between_of_group1 h fun gs hgs => ⟨l, fun _ => id, hgs⟩
  exact isName_of_between (fun c hc => hl c (hs c hc)) hbetween

theorem isName_of_header (hl : OneLine l) (h : group1 callerPattern l = some name) :
    IsName name := by
  obtain ⟨s, hs, hbetween⟩ := between_of_group1 h fun gs hgs => by
    obtain ⟨s, rfl, hgs'⟩ := Pattern.exists_of_captures_literal hgs
    exact ⟨s, fun c hc => List.mem_append_right _ hc, hgs'⟩
  exact isName_of_between (fun c hc => hl c (hs c hc)) hbetween

theorem named_blocksOfLines (h : ∀ l ∈ ls, OneLine l) : Named (blocksOfLines ls) := by
  induction hn : ls.length using Nat.strongRecOn generalizing ls with
  | _ n ih =>
    cases ls with
    | nil =>
      rw [blocksOfLines]
      exact fun b hb => absurd hb List.not_mem_nil
    | cons l ls =>
      obtain ⟨hl, hls⟩ := List.forall_mem_cons.mp h
      have hlen : ls.length < n := by rw [← hn, List.length_cons]; omega
      cases hg : group1 callerPattern l with
      | none =>
        rw [blocksOfLines_cons_none hg]
        exact ih _ hlen hls rfl
      | some caller =>
        rw [blocksOfLines_cons_some hg]
        refine List.forall_mem_cons.mpr ⟨⟨isName_of_header hl hg, fun f hf => ?_⟩, ?_⟩
        · -- a callee is read from a line of the node
          obtain ⟨l', hl', hf⟩ := List.mem_filterMap.mp hf
          exact isName_of_callee (hls l' ((List.takeWhile_prefix _).subset hl')) hf
        · have hsub : ∀ l' ∈ fromEmpty ls, OneLine l' := fun l' hl' =>
            hls l' ((List.dropWhile_suffix _).subset hl')
          exact ih _ ((fromEmpty_length ls).trans_lt hlen) hsub rfl

/-- The names read are names. -/
theorem named_blocks (text : List Char) : Named (blocks text) := by
  obtain ⟨ls, hls⟩ := exists_lines text
  rw [blocks_linesOf, ← lines_iff.mp hls]
  exact named_blocksOfLines hls.oneLine

end Read

-- ---------------------------------------------------------------------------
-- What is written
-- ---------------------------------------------------------------------------

section Write

variable {name : String}

theorem group1_writeHeader (h : IsName name) :
    group1 callerPattern (writeHeader name) = some name := by
  have hmatch : Pattern.captures callerPattern (writeHeader name) = some [name.toList] :=
    (Pattern.captures_literal "Call".toList _ _).trans
      (Pattern.captures_between " graph node for function: ".toList h.1 List.not_mem_nil)
  rw [group1, hmatch]
  exact congrArg some String.ofList_toList

theorem group1_writeCallee (h : IsName name) :
    group1 calleePattern (writeCallee name) = some name := by
  have hmatch : Pattern.captures calleePattern (writeCallee name) = some [name.toList] :=
    Pattern.captures_between "  calls function ".toList h.1 List.not_mem_nil
  rw [group1, hmatch]
  exact congrArg some String.ofList_toList

theorem oneLine_writeHeader (h : IsName name) : OneLine (writeHeader name) := by
  have hquote : isLineEnd quote = false := by decide
  have hcall : OneLine "Call graph node for function: ".toList := by decide
  refine oneLine_append.mpr ⟨hcall, oneLine_cons.mpr ⟨hquote, oneLine_append.mpr ⟨h.2, ?_⟩⟩⟩
  decide

theorem oneLine_writeCallee (h : IsName name) : OneLine (writeCallee name) := by
  have hquote : isLineEnd quote = false := by decide
  have hcall : OneLine "  calls function ".toList := by decide
  refine oneLine_append.mpr ⟨hcall, oneLine_cons.mpr ⟨hquote, oneLine_append.mpr ⟨h.2, ?_⟩⟩⟩
  decide

theorem lines_write {bs : List Block} (h : Named bs) : Lines (writeLines bs) (write bs) := by
  refine lines_flatMap fun l hl => ?_
  obtain ⟨b, hb, hl⟩ := List.mem_flatMap.mp hl
  rw [List.mem_cons, List.mem_append] at hl
  rcases hl with rfl | hl | hl
  · exact oneLine_writeHeader (h b hb).1
  · obtain ⟨f, hf, rfl⟩ := List.mem_map.mp hl
    exact oneLine_writeCallee ((h b hb).2 f hf)
  · rw [List.mem_singleton.mp hl]
    decide

/-- The lines of the callees end at the empty line. -/
theorem untilEmpty_writeCallee (cs : List String) (ls : List (List Char)) :
    untilEmpty (cs.map writeCallee ++ [] :: ls) = cs.map writeCallee ∧
      fromEmpty (cs.map writeCallee ++ [] :: ls) = [] :: ls := by
  induction cs with
  | nil => exact ⟨rfl, rfl⟩
  | cons c cs ih =>
    have hne : writeCallee c ≠ [] :=
      List.append_ne_nil_of_right_ne_nil _ (List.cons_ne_nil _ _)
    rw [List.map_cons, List.cons_append, untilEmpty_cons hne, fromEmpty_cons hne, ih.1, ih.2]
    exact ⟨rfl, rfl⟩

theorem filterMap_writeCallee {cs : List String} (h : ∀ f ∈ cs, IsName f) :
    (cs.map writeCallee).filterMap (group1 calleePattern) = cs := by
  have hcongr : cs.filterMap (group1 calleePattern ∘ writeCallee) = cs.filterMap some := by
    refine List.filterMap_congr fun f hf => ?_
    rw [Function.comp_apply, group1_writeCallee (h f hf)]
  rw [List.filterMap_map, hcongr, List.filterMap_some]

/-- Node by node, what is written is read. -/
theorem blocksOfLines_writeLines {bs : List Block} (h : Named bs) :
    blocksOfLines (writeLines bs) = bs := by
  induction bs with
  | nil => rw [writeLines, List.flatMap_nil, blocksOfLines]
  | cons b bs ih =>
    obtain ⟨⟨hcaller, hcallees⟩, hbs⟩ := List.forall_mem_cons.mp h
    have hlines : writeLines (b :: bs) =
        writeHeader b.caller :: (b.callees.map writeCallee ++ [] :: writeLines bs) := by
      simp [writeLines]
    obtain ⟨huntil, hfrom⟩ := untilEmpty_writeCallee b.callees (writeLines bs)
    rw [hlines, blocksOfLines_cons_some (group1_writeHeader hcaller), huntil, hfrom,
      filterMap_writeCallee hcallees, blocksOfLines_cons_none group1_callerPattern_empty, ih hbs]

theorem blocks_write {bs : List Block} (h : Named bs) : blocks (write bs) = bs := by
  rw [blocks_linesOf, ← lines_iff.mp (lines_write h), blocksOfLines_writeLines h]

end Write

/--
**Call graphs written and read.**

1. Nodes are read back from the text written for them exactly when their names have no quotes
   and no line ends.
2. Exactly then they are the nodes of any text.
3. No program can tell a text from the one written for its nodes.
-/
theorem read_write :
    (∀ bs, blocks (write bs) = bs ↔ Named bs) ∧
    (∀ bs, (∃ text, blocks text = bs) ↔ Named bs) ∧
    ∀ {σ : Type} (A : Actions σ) (text : List Char) (st : σ),
      scanLoop A (write (blocks text)) st = scanLoop A text st := by
  refine ⟨fun bs => ⟨fun h => h ▸ named_blocks _, blocks_write⟩, fun bs => ?_, ?_⟩
  · constructor
    · rintro ⟨text, rfl⟩
      exact named_blocks text
    · intro h
      exact ⟨write bs, blocks_write h⟩
  · intro σ A text st
    rw [scanLoop_eq_blocks, blocks_write (named_blocks text), scanLoop_eq_blocks]

end Pipair
