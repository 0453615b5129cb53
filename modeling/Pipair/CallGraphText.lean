import Pipair.Lines
import Pipair.PartA

/-!
# The text of a call graph

What `opt -print-callgraph` prints: nodes, with empty lines between them, each with
a header and a line for every call. A node of a function has the name in quotes, as
in `test3.bc.callgraph.txt`; the node of external callers has none. A call of a
function has its name at the end, in quotes, and a call of unknown code has none.

`scanLoop_reads` says that the scan loop of part A finds exactly this: it calls
`addValueToMap` once for each line with a function in a node of a function, in the
order of the text, while `nearByCallees` has the callees of the lines before it in
the same node.

The pattern for callees asks for two quotes and not for where they stand. So a line
for unknown code is skipped as long as what stands before it does not have two
(`scanLoop_misreads`).
-/

namespace Pipair

-- ---------------------------------------------------------------------------
-- Nodes
-- ---------------------------------------------------------------------------

/-- A part of a line. -/
structure LineText where
  chars : List Char
  oneLine : OneLine chars

/-- A part of a line without quotes. -/
structure QuoteFree extends LineText where
  noQuote : quote ∉ chars

def QuoteFree.string (t : QuoteFree) : String := String.ofList t.chars

/-- A line of a node: a call of a function, or of external code. -/
inductive Entry
  | function (lead : LineText) (callee : QuoteFree)
  | external (lead : LineText)

def Entry.line : Entry → List Char
  | .function lead callee =>
    "  ".toList ++ (lead.chars ++ ("calls function ".toList ++ quote :: (callee.chars ++ [quote])))
  | .external lead => "  ".toList ++ (lead.chars ++ "calls external node".toList)

def Entry.callee : Entry → Option String
  | .function _ callee => some callee.string
  | .external _ => none

/-- The first line of a node: that of a function, or one without quotes. -/
inductive Header
  | function (caller rest : QuoteFree)
  | plain (line : QuoteFree)

def Header.line : Header → List Char
  | .function caller rest =>
    "Call graph node for function: ".toList ++ quote :: (caller.chars ++ quote :: rest.chars)
  | .plain line => line.chars

structure Node where
  header : Header
  entries : List Entry
  emptyLines : Nat

namespace Node

def body (n : Node) : List (List Char) := n.entries.map Entry.line

def lines (n : Node) : List (List Char) :=
  n.header.line :: (n.body ++ List.replicate n.emptyLines [])

/-- The block that a node of a function stands for. -/
def block (n : Node) : Option Block :=
  match n.header with
  | .function caller _ => some ⟨caller.string, n.entries.filterMap Entry.callee⟩
  | .plain _ => none

end Node

/-- The text of a call graph: every node but the last is followed by an empty line. -/
structure IsCallGraph (nodes : List Node) (text : List Char) : Prop where
  lines : Lines (nodes.flatMap Node.lines) text
  separated : ∀ n ∈ nodes.dropLast, 1 ≤ n.emptyLines

/-- The text of some nodes, with a line feed behind each line. -/
def render (nodes : List Node) : List Char :=
  (nodes.flatMap Node.lines).flatMap fun l => l ++ ['\n']

theorem Entry.oneLine (entry : Entry) : OneLine entry.line := by
  have hblank : OneLine "  ".toList := by decide
  have hquote : isLineEnd quote = false := by decide
  cases entry with
  | function lead callee =>
    have hcalls : OneLine "calls function ".toList := by decide
    have hend : OneLine [quote] := by decide
    refine oneLine_append.mpr ⟨hblank, oneLine_append.mpr ⟨lead.oneLine, ?_⟩⟩
    refine oneLine_append.mpr ⟨hcalls, oneLine_cons.mpr ⟨hquote, ?_⟩⟩
    exact oneLine_append.mpr ⟨callee.oneLine, hend⟩
  | external lead =>
    have hcalls : OneLine "calls external node".toList := by decide
    exact oneLine_append.mpr ⟨hblank, oneLine_append.mpr ⟨lead.oneLine, hcalls⟩⟩

theorem Header.oneLine (header : Header) : OneLine header.line := by
  cases header with
  | function caller rest =>
    have hcall : OneLine "Call graph node for function: ".toList := by decide
    have hquote : isLineEnd quote = false := by decide
    refine oneLine_append.mpr ⟨hcall, oneLine_cons.mpr ⟨hquote, oneLine_append.mpr ?_⟩⟩
    exact ⟨caller.oneLine, oneLine_cons.mpr ⟨hquote, rest.oneLine⟩⟩
  | plain line => exact line.oneLine

theorem Node.oneLine {n : Node} : ∀ l ∈ n.lines, OneLine l := by
  intro l hl
  rw [Node.lines, List.mem_cons, List.mem_append] at hl
  rcases hl with rfl | hl | hl
  · exact n.header.oneLine
  · obtain ⟨entry, -, rfl⟩ := List.mem_map.mp hl
    exact entry.oneLine
  · rw [List.eq_of_mem_replicate hl]
    decide

/-- All nodes have a text. -/
theorem isCallGraph_render {nodes : List Node}
    (h : ∀ n ∈ nodes.dropLast, 1 ≤ n.emptyLines) : IsCallGraph nodes (render nodes) where
  lines := lines_flatMap fun l hl => by
    obtain ⟨n, -, hl⟩ := List.mem_flatMap.mp hl
    exact n.oneLine l hl
  separated := h

/-- In the nodes of functions, no two quotes stand before a call of external code. -/
def PlainLeads (nodes : List Node) : Prop :=
  ∀ n ∈ nodes, n.block.isSome → ∀ lead, Entry.external lead ∈ n.entries →
    lead.chars.count quote ≤ 1

-- ---------------------------------------------------------------------------
-- The two patterns
-- ---------------------------------------------------------------------------

theorem group1_of_captures {p : List Pattern.Item} {line : List Char} {t : QuoteFree}
    (h : Pattern.captures p line = some [t.chars]) : group1 p line = some t.string := by
  rw [group1, h]
  rfl

theorem group1_eq_none {p : List Pattern.Item} {line : List Char}
    (h : Pattern.captures p line = none) : group1 p line = none := by
  rw [group1, h]

/-- The callee pattern finds the callee of a line, when there is one. -/
theorem group1_entry {entry : Entry}
    (h : ∀ lead, entry = .external lead → lead.chars.count quote ≤ 1) :
    group1 calleePattern entry.line = entry.callee := by
  cases entry with
  | function lead callee =>
    refine group1_of_captures ?_
    -- the quotes of the callee are the last two of the line
    have hmatch := Pattern.captures_between
      ("  ".toList ++ (lead.chars ++ "calls function ".toList)) callee.noQuote
      (List.not_mem_nil (a := quote))
    rw [List.append_assoc, List.append_assoc] at hmatch
    exact hmatch
  | external lead =>
    refine group1_eq_none (Pattern.captures_between_eq_none ?_)
    have hblank : "  ".toList.count quote = 0 := by decide
    have hcalls : "calls external node".toList.count quote = 0 := by decide
    rw [Entry.line, List.count_append, List.count_append, hblank, hcalls]
    have := h lead rfl
    omega

theorem filterMap_entries {entries : List Entry}
    (h : ∀ lead, Entry.external lead ∈ entries → lead.chars.count quote ≤ 1) :
    (entries.map Entry.line).filterMap (group1 calleePattern) =
      entries.filterMap Entry.callee := by
  rw [List.filterMap_map]
  refine List.filterMap_congr fun entry hentry => group1_entry ?_
  rintro lead rfl
  exact h lead hentry

/-- What the caller pattern matches begins with `Call` and has two quotes behind that. -/
theorem callerPattern_eq_none {line : List Char}
    (h : ∀ s, line = "Call".toList ++ s → s.count quote ≤ 1) :
    group1 callerPattern line = none := by
  refine group1_eq_none ?_
  cases hs : Pattern.captures callerPattern line with
  | none => rfl
  | some gs =>
    obtain ⟨s, hline, hgs⟩ := Pattern.exists_of_captures_literal hs
    rw [← hgs]
    exact Pattern.captures_between_eq_none (h s hline)

theorem group1_header_function (caller rest : QuoteFree) :
    group1 callerPattern (Header.function caller rest).line = some caller.string := by
  refine group1_of_captures ?_
  have hline : (Header.function caller rest).line = "Call".toList ++
      (" graph node for function: ".toList ++ quote :: (caller.chars ++ quote :: rest.chars)) :=
    rfl
  rw [hline]
  exact (Pattern.captures_literal _ _ _).trans
    (Pattern.captures_between _ caller.noQuote rest.noQuote)

/-- A line without quotes is no header of a function. -/
theorem group1_header_plain (line : QuoteFree) :
    group1 callerPattern (Header.plain line).line = none := by
  refine callerPattern_eq_none fun s hs => ?_
  have hline : line.chars = "Call".toList ++ s := hs
  have hnone : quote ∉ s := fun hmem => line.noQuote (hline ▸ List.mem_append_right _ hmem)
  rw [List.count_eq_zero.mpr hnone]
  omega

/-- A line that starts with a blank is none either. -/
theorem group1_callerPattern_entry (entry : Entry) :
    group1 callerPattern entry.line = none := by
  refine callerPattern_eq_none fun s hs => ?_
  have hhead := congrArg List.head? hs
  have hblank : entry.line.head? = some ' ' := by
    cases entry <;> rfl
  rw [hblank] at hhead
  exact absurd hhead (by simp)

theorem group1_callerPattern_nil : group1 callerPattern [] = none := rfl

theorem hasNext_entry (entry : Entry) : hasNext entry.line = true := by
  cases entry with
  | function lead callee =>
    have hcalls : hasNext "calls function ".toList = true := by decide
    exact hasNext_mono
      (fun c hc => by simp only [Entry.line, List.mem_append, hc, true_or, or_true]) hcalls
  | external lead =>
    have hcalls : hasNext "calls external node".toList = true := by decide
    exact hasNext_mono (fun c hc => by simp only [Entry.line, List.mem_append, hc, or_true]) hcalls

-- ---------------------------------------------------------------------------
-- The scan loop on a text
-- ---------------------------------------------------------------------------

/-- **Step lemma.** The loop reads a node: the block it stands for, if any. -/
theorem scanLoop_node {n : Node} {ls : List (List Char)} {text : List Char}
    (h : Lines (n.lines ++ ls) text) (hsep : n.emptyLines = 0 → ls = [])
    (hlead : n.block.isSome → ∀ lead, Entry.external lead ∈ n.entries →
      lead.chars.count quote ≤ 1) :
    ∃ rest, Lines ls rest ∧ ∀ {σ : Type} (A : Actions σ) (st : σ),
      scanLoop A text st = scanLoop A rest (n.block.toList.foldl A.runBlock st) := by
  have hempty : ∀ {k : Nat}, ∀ l ∈ List.replicate k ([] : List Char),
      group1 callerPattern l = none := by
    intro k l hl
    rw [List.eq_of_mem_replicate hl]
    exact group1_callerPattern_nil
  cases hheader : n.header with
  | plain line =>
    -- nothing of the node is a header of a function
    have hskip : ∀ l ∈ n.lines, group1 callerPattern l = none := by
      intro l hl
      rw [Node.lines, List.mem_cons, List.mem_append, hheader] at hl
      rcases hl with rfl | hl | hl
      · exact group1_header_plain line
      · obtain ⟨entry, -, rfl⟩ := List.mem_map.mp hl
        exact group1_callerPattern_entry entry
      · exact hempty l hl
    obtain ⟨rest, hrest, heq⟩ := scanLoop_skip_all h hskip
    refine ⟨rest, hrest, fun A st => ?_⟩
    rw [Node.block, hheader]
    exact heq A st
  | function caller tail =>
    have hblock : n.block = some ⟨caller.string, n.entries.filterMap Entry.callee⟩ := by
      rw [Node.block, hheader]
    have hlines : n.lines ++ ls =
        (Header.function caller tail).line ::
          (n.body ++ (List.replicate n.emptyLines [] ++ ls)) := by
      rw [Node.lines, hheader, List.cons_append, List.append_assoc]
    rw [hlines] at h
    have hbody : ∀ l ∈ n.body, hasNext l = true := by
      intro l hl
      obtain ⟨entry, -, rfl⟩ := List.mem_map.mp hl
      exact hasNext_entry entry
    have hcall : hasNext "Call graph node for function: ".toList = true := by decide
    have hheaderToken : hasNext (Header.function caller tail).line = true :=
      hasNext_mono (List.subset_append_left _ _) hcall
    -- the block ends with the first of the empty lines, and the others are read over
    have hend : ∀ l ∈ (List.replicate n.emptyLines [] ++ ls).head?, l = [] := by
      intro l hl
      cases hk : n.emptyLines with
      | zero =>
        rw [hk, hsep hk] at hl
        exact absurd hl (by simp)
      | succ k =>
        rw [hk] at hl
        simpa [List.replicate_succ] using hl.symm
    obtain ⟨rest, hrest, heq⟩ :=
      scanLoop_block h hheaderToken (group1_header_function caller tail) hbody hend
    have htail : (List.replicate n.emptyLines ([] : List Char) ++ ls).tail =
        List.replicate (n.emptyLines - 1) [] ++ ls := by
      cases hk : n.emptyLines with
      | zero => simp [hsep hk]
      | succ k => rfl
    rw [htail] at hrest
    obtain ⟨rest', hrest', heq'⟩ := scanLoop_skip_all hrest hempty
    refine ⟨rest', hrest', fun A st => ?_⟩
    rw [heq, heq', Node.body, filterMap_entries (hlead (by rw [hblock]; rfl)), hblock]
    rfl

/-- **Run lemma.** The loop runs over the blocks of the nodes, in their order. -/
theorem scanLoop_nodes {nodes : List Node} {text : List Char} (h : IsCallGraph nodes text)
    (hlead : PlainLeads nodes) {σ : Type} (A : Actions σ) (st : σ) :
    scanLoop A text st = (nodes.filterMap Node.block).foldl A.runBlock st := by
  obtain ⟨hlines, hsep⟩ := h
  induction nodes generalizing text st with
  | nil =>
    cases hlines
    exact scanLoop_of_not_hasNext (by decide)
  | cons n nodes ih =>
    rw [List.flatMap_cons] at hlines
    have hlast : n.emptyLines = 0 → nodes.flatMap Node.lines = [] := by
      intro hzero
      cases nodes with
      | nil => rfl
      | cons n' nodes =>
        have := hsep n (by simp [List.dropLast])
        omega
    obtain ⟨rest, hrest, heq⟩ :=
      scanLoop_node hlines hlast (hlead n (List.mem_cons_self ..))
    have hsep' : ∀ m ∈ nodes.dropLast, 1 ≤ m.emptyLines := by
      intro m hm
      cases nodes with
      | nil => exact absurd hm List.not_mem_nil
      | cons n' nodes => exact hsep m (List.mem_cons_of_mem _ hm)
    rw [heq, ih (fun m hm => hlead m (List.mem_cons_of_mem _ hm)) _ hrest hsep']
    cases hblock : n.block with
    | none =>
      rw [List.filterMap_cons_none hblock]
      rfl
    | some b =>
      rw [List.filterMap_cons_some hblock]
      rfl

/-- No node is dropped, split or merged with its neighbour. -/
theorem blocks_eq {nodes : List Node} {text : List Char} (h : IsCallGraph nodes text)
    (hlead : PlainLeads nodes) : blocks text = nodes.filterMap Node.block := by
  rw [blocks, scanLoop_nodes h hlead, foldl_recorder]
  rfl

-- ---------------------------------------------------------------------------
-- The calls of addValueToMap
-- ---------------------------------------------------------------------------

/-- A call of `addValueToMap`, and `nearByCallees` at that time. -/
structure AddCall where
  addValue : String
  addLocation : String
  nearByCallees : Finset String
deriving DecidableEq

/-- `addValueToMap` with a record of its calls: it notes its arguments and what it finds in
`nearByCallees`, and then does what it does. -/
def addValueToMapLogged (st : PartA.State × List AddCall) (addValue addLocation : String) :
    PartA.State × List AddCall :=
  (PartA.addValueToMap st.1 addValue addLocation,
    st.2 ++ [⟨addValue, addLocation, st.1.nearByCallees⟩])

/-- What `main` of part A does with the lines it reads, calling this `addValueToMap`. -/
def logged : Actions (PartA.State × List AddCall) where
  header st := ({ st.1 with nearByCallees := ∅ }, st.2)
  callee st callee caller :=
    let st := addValueToMapLogged st callee caller
    ({ st.1 with nearByCallees := insert callee st.1.nearByCallees }, st.2)
  footer st _ := st

/-- One call for every callee of a node, `earlier` being the callees listed before. -/
def addCalls (caller : String) (earlier : List String) : List String → List AddCall
  | [] => []
  | callee :: callees =>
    ⟨callee, caller, earlier.toFinset⟩ :: addCalls caller (earlier ++ [callee]) callees

/-- The calls for a node: none when it is not the node of a function. -/
def Node.addCalls (n : Node) : List AddCall :=
  match n.header with
  | .function caller _ =>
    Pipair.addCalls caller.string [] (n.entries.filterMap Entry.callee)
  | .plain _ => []

theorem foldl_logged (caller : String) (cs earlier : List String)
    {st : PartA.State × List AddCall} (h : st.1.nearByCallees = earlier.toFinset) :
    cs.foldl (fun st callee => logged.callee st callee caller) st =
      (cs.foldl (fun st callee => PartA.actions.callee st callee caller) st.1,
        st.2 ++ addCalls caller earlier cs) := by
  induction cs generalizing st earlier with
  | nil => simp [addCalls]
  | cons c cs ih =>
    have hnear : (logged.callee st c caller).1.nearByCallees = (earlier ++ [c]).toFinset := by
      have hcallee := PartA.callees_nearBy caller [c] st.1
      rw [h, ← List.toFinset_append] at hcallee
      exact hcallee
    have hcall : logged.callee st c caller = (PartA.actions.callee st.1 c caller,
        st.2 ++ [⟨c, caller, earlier.toFinset⟩]) := by
      rw [← h]
      rfl
    rw [List.foldl_cons, ih _ hnear, hcall, addCalls, List.foldl_cons, List.append_assoc,
      List.singleton_append]

theorem runBlock_logged (st : PartA.State × List AddCall) (b : Block) :
    logged.runBlock st b =
      (PartA.actions.runBlock st.1 b, st.2 ++ addCalls b.caller [] b.callees) := by
  rw [Actions.runBlock, foldl_logged b.caller b.callees [] rfl]
  rfl

theorem foldl_runBlock_logged (bs : List Block) (st : PartA.State × List AddCall) :
    bs.foldl logged.runBlock st =
      (bs.foldl PartA.actions.runBlock st.1,
        st.2 ++ bs.flatMap fun b => addCalls b.caller [] b.callees) := by
  induction bs generalizing st with
  | nil => simp
  | cons b bs ih =>
    rw [List.foldl_cons, ih, runBlock_logged, List.foldl_cons, List.flatMap_cons,
      List.append_assoc]

theorem flatMap_addCalls (nodes : List Node) :
    (nodes.filterMap Node.block).flatMap (fun b => addCalls b.caller [] b.callees) =
      nodes.flatMap Node.addCalls := by
  induction nodes with
  | nil => rfl
  | cons n nodes ih =>
    cases hheader : n.header with
    | plain line =>
      have hblock : n.block = none := by rw [Node.block, hheader]
      have hcalls : n.addCalls = [] := by rw [Node.addCalls, hheader]
      rw [List.filterMap_cons_none hblock, List.flatMap_cons, hcalls, ih, List.nil_append]
    | function caller rest =>
      have hblock : n.block = some ⟨caller.string, n.entries.filterMap Entry.callee⟩ := by
        rw [Node.block, hheader]
      have hcalls : n.addCalls =
          addCalls caller.string [] (n.entries.filterMap Entry.callee) := by
        rw [Node.addCalls, hheader]
      rw [List.filterMap_cons_some hblock, List.flatMap_cons, List.flatMap_cons, hcalls, ih]

/--
**The scan loop reads call graphs.** Let the text be that of a call graph, in which no
two quotes stand before a call of external code in the node of a function.

1. The loop calls `addValueToMap` for the callees of the nodes of functions, in the
   order of the text, with the function of the node; and `nearByCallees` has at each
   call the callees listed earlier in the node. There are no other calls.
2. Recording the calls does not change what part A does.
3. The blocks read are the nodes of functions, in their order.
-/
theorem scanLoop_reads (nodes : List Node) (text : List Char) (h : IsCallGraph nodes text)
    (hlead : PlainLeads nodes) :
    (scanLoop logged text (PartA.init, [])).2 = nodes.flatMap Node.addCalls ∧
    (scanLoop logged text (PartA.init, [])).1 = scanLoop PartA.actions text PartA.init ∧
    blocks text = nodes.filterMap Node.block := by
  refine ⟨?calls, ?state, blocks_eq h hlead⟩
  case calls =>
    rw [scanLoop_nodes h hlead, foldl_runBlock_logged, flatMap_addCalls]
    rfl
  case state =>
    rw [scanLoop_nodes h hlead, scanLoop_nodes h hlead, foldl_runBlock_logged]

/-- A node of external callers, and one of a function that calls `A`, unknown code and
`B`. -/
def sampleNodes : List Node :=
  let f : QuoteFree := ⟨⟨"f".toList, by decide⟩, by decide⟩
  let a : QuoteFree := ⟨⟨"A".toList, by decide⟩, by decide⟩
  let b : QuoteFree := ⟨⟨"B".toList, by decide⟩, by decide⟩
  let null : QuoteFree := ⟨⟨"Call graph node <<null function>><<0x1>>  #uses=0".toList,
    by decide⟩, by decide⟩
  let uses : QuoteFree := ⟨⟨"<<0x2>>  #uses=1".toList, by decide⟩, by decide⟩
  let lead : LineText := ⟨"CS<0x3> ".toList, by decide⟩
  [⟨.plain null, [.function lead f], 1⟩,
    ⟨.function f uses, [.function lead a, .external lead, .function lead b], 0⟩]

theorem scanLoop_reads_sample :
    (scanLoop logged (render sampleNodes) (PartA.init, [])).2 =
        [⟨"A", "f", ∅⟩, ⟨"B", "f", {"A"}⟩] ∧
      blocks (render sampleNodes) = [⟨"f", ["A", "B"]⟩] := by
  have hgraph : IsCallGraph sampleNodes (render sampleNodes) :=
    isCallGraph_render (by decide)
  have hlead : PlainLeads sampleNodes := by
    intro n hn _ lead hmem
    simp only [sampleNodes, List.mem_cons, List.not_mem_nil, or_false] at hn
    rcases hn with rfl | rfl
    · simp at hmem
    · simp only [List.mem_cons, List.not_mem_nil, or_false, reduceCtorEq, false_or,
        Entry.external.injEq] at hmem
      rw [hmem]
      decide
  obtain ⟨hcalls, -, hblocks⟩ := scanLoop_reads sampleNodes (render sampleNodes) hgraph hlead
  exact ⟨hcalls.trans rfl, hblocks.trans rfl⟩

/-- A function whose only call is of external code, with a quoted name before it. -/
def quotedLead : List Node :=
  let f : QuoteFree := ⟨⟨"f".toList, by decide⟩, by decide⟩
  let none : QuoteFree := ⟨⟨[], by decide⟩, by decide⟩
  [⟨.function f none, [.external ⟨"'x' ".toList, by decide⟩], 0⟩]

/-- For `quotedLead` the loop calls `addValueToMap` with `x`, which nobody calls. -/
theorem scanLoop_misreads :
    ¬ ∀ nodes text, IsCallGraph nodes text →
      (scanLoop logged text (PartA.init, [])).2 = nodes.flatMap Node.addCalls := by
  intro h
  have hcalls := h quotedLead (render quotedLead) (isCallGraph_render (by decide))
  have hlog : (scanLoop logged (render quotedLead) (PartA.init, [])).2 = [⟨"x", "f", ∅⟩] := by
    decide +kernel
  rw [hlog] at hcalls
  exact absurd hcalls (by decide)

end Pipair
