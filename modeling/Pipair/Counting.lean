import Pipair.PartA
import Pipair.Library.Tally

/-!
# Part A by counting

`qi/partA/pipair_java.java`, an earlier version of part A. It keeps besides
`location` a list for each function, `map`: for every block that calls the
function, the list gets the functions of the block. Supports are counted in the
list and not taken from `location`.

The invariant of a block (`Counted`) says how often a function is in the list of
another after every callee line. Over a run the count is the number of blocks
with both functions (`count_run`), and when no caller heads two blocks, that is
the number of callers (`counts_run`). So the two versions print the same lines
(`run_perm_partA`).
-/

namespace Pipair.Counting

open Mining

-- ---------------------------------------------------------------------------
-- The program
-- ---------------------------------------------------------------------------

/-- The functions near each function, with repetitions. -/
abbrev NearBy := HashMap String (List String)

/-- The static maps of the program. -/
structure State extends PartA.State where
  map : NearBy

/-- The orders of the loops: over `nearByCallees`, over `map.keySet()`, over
`countMap.keySet()` for each key, over the functions of a pair, and over
`locationTemp`. The set `nearByCallees` is filled anew in every block, and the pairs are
made anew for every key, so their orders may be different each time: the one may depend on
`map`, which grows with every call, the other on the key. -/
structure CountOrder where
  nearBy : NearBy → String → Iteration String
  keys : Iteration String
  countMapKeys : String → Iteration (Finset String)
  elems : String → Finset String → Iteration String
  callers : String → Finset String → Iteration String

noncomputable instance : Inhabited CountOrder :=
  ⟨⟨fun _ _ => default, default, fun _ => default, fun _ _ => default, fun _ _ => default⟩⟩

/-- Add the new value to the list of one key. -/
def addToKey (addValue : String) (map : NearBy) (key : String) : Except Fault NearBy := do
  let nearByValues ← deref (map.get key)
  pure (map.put key (nearByValues ++ [addValue]))

def addValueToMap (ord : CountOrder) (st : State) (addValue addLocation : String) :
    Except Fault State := do
  -- check same addvalue
  if addValue ∈ st.nearByCallees then pure st
  else
    let keys := (ord.nearBy st.map addValue).list st.nearByCallees
    -- add new key
    let nearByValues := (st.map.get addValue).getD []
    let map := st.map.put addValue (nearByValues ++ keys ++ [addValue])
    -- add new value to keys
    let map ← keys.foldlM (addToKey addValue) map
    -- add otherpair
    let location := st.location.addEach st.nearByCallees (fun key => {addValue, key}) addLocation
    -- add selfpair
    pure { st with map := map, location := location.add {addValue} addLocation }

/-- What `main` does with the lines it reads. -/
def actions (ord : CountOrder) : Actions (Except Fault State) where
  header st := do
    let st ← st
    pure { st with nearByCallees := ∅ }
  callee st callee caller := do
    let st ← addValueToMap ord (← st) callee caller
    pure { st with nearByCallees := insert callee st.nearByCallees }
  footer st _ := st

def init : State := { PartA.init with map := HashMap.empty }

/-- The body of the loop over `map.keySet()`. -/
def printKey (ord : CountOrder) (st : State) (support : Int) (confidence : ℚ) (key : String) :
    Except Fault (List BugLine) := do
  let valueList ← deref (st.map.get key)
  let countMap := tally (fun elem => ({key, elem} : Finset String)) valueList
  let countMapKeySet : Finset String := {key}
  forEach (fun countMapKey =>
      if countMapKey ≠ countMapKeySet then do
        let supportPair ← deref (countMap.get countMapKey)
        let supportKey ← deref (countMap.get countMapKeySet)
        let confidencePair : ℚ := supportPair / supportKey
        if support ≤ supportKey ∧ support ≤ supportPair ∧ confidencePair < 1 ∧
            confidence ≤ confidencePair then
          printCallers (fun _ _ _ => .ok false) (ord.elems key countMapKey)
            (ord.callers key countMapKey) st.location countMapKeySet countMapKey key supportPair
            confidencePair
        else pure []
      else pure [])
    ((ord.countMapKeys key).list countMap.keySet)

def printBug (ord : CountOrder) (st : State) (support : Int) (confidence : ℚ) :
    Except Fault (List BugLine) :=
  forEach (printKey ord st support confidence) (ord.keys.list st.map.keySet)

/-- The blocks of a call graph, then the bugs. -/
def run (ord : CountOrder) (bs : List Block) (support : Int) (confidence : ℚ) :
    Except Fault (List BugLine) := do
  let st ← bs.foldl (actions ord).runBlock (.ok init)
  printBug ord st support confidence

def main (ord : CountOrder) (text : List Char) (support : Int) (confidence : ℚ) :
    Except Fault (List BugLine) := do
  let st ← scanLoop (actions ord) text (.ok init)
  printBug ord st support confidence

theorem main_eq_run (ord : CountOrder) (text : List Char) (support : Int) (confidence : ℚ) :
    main ord text support confidence = run ord (blocks text) support confidence := by
  rw [main, run, scanLoop_eq_blocks]

-- ---------------------------------------------------------------------------
-- The lists
-- ---------------------------------------------------------------------------

/-- How often `b` is in the list of `a`. -/
def count (map : NearBy) (a b : String) : Nat := ((map.get a).getD []).count b

/-- Inside a block begun with the lists `m`: the functions of the block have
lists, and each of them is once more in the list of each. -/
structure Counted (m : NearBy) (st : State) : Prop where
  known : ∀ a ∈ st.nearByCallees, ∃ l, st.map.get a = some l
  count : ∀ a b, count st.map a b =
    count m a b + if a ∈ st.nearByCallees ∧ b ∈ st.nearByCallees then 1 else 0

/-- The loop that adds the new value to the lists of known functions. -/
theorem foldlM_addToKey (x : String) {keys : List String} (hkeys : keys.Nodup) {m : NearBy}
    (hknown : ∀ a ∈ keys, ∃ l, m.get a = some l) :
    ∃ m', keys.foldlM (addToKey x) m = .ok m' ∧
      ∀ a, m'.get a = if a ∈ keys then some ((m.get a).getD [] ++ [x]) else m.get a := by
  induction keys generalizing m with
  | nil => exact ⟨m, rfl, fun a => by simp⟩
  | cons k keys ih =>
    rw [List.nodup_cons] at hkeys
    obtain ⟨l, hl⟩ := hknown k (List.mem_cons_self ..)
    -- `k` does not come again, so its list is not touched by the rest of the loop
    obtain ⟨m', hm', hget⟩ := ih (m := m.put k (l ++ [x])) hkeys.2 fun a ha => by
      rw [HashMap.get_put]
      split
      · exact ⟨_, rfl⟩
      · exact hknown a (List.mem_cons_of_mem _ ha)
    refine ⟨m', ?_, fun a => ?_⟩
    · rw [List.foldlM_cons, addToKey, hl, deref_some, ok_bind]
      exact hm'
    · rw [hget, HashMap.get_put]
      by_cases ha : a = k
      · subst ha
        simp [hkeys.1, hl]
      · simp [ha]

/-- What a new callee does: its list gets the functions of the block and itself,
and their lists get it. -/
theorem addValueToMap_spec (ord : CountOrder) {st : State} {x : String} (caller : String)
    (hknown : ∀ a ∈ st.nearByCallees, ∃ l, st.map.get a = some l) (hx : x ∉ st.nearByCallees) :
    ∃ map, addValueToMap ord st x caller =
        .ok ⟨PartA.addValueToMap st.toState x caller, map⟩ ∧
      ∀ a, map.get a =
        if a ∈ st.nearByCallees then some ((st.map.get a).getD [] ++ [x])
        else if a = x then
          some ((st.map.get x).getD [] ++ (ord.nearBy st.map x).list st.nearByCallees ++ [x])
        else st.map.get a := by
  obtain ⟨map, hmap, hget⟩ := foldlM_addToKey x
    (Iteration.nodup_list (ord.nearBy st.map x) st.nearByCallees)
    (m := st.map.put x
      ((st.map.get x).getD [] ++ (ord.nearBy st.map x).list st.nearByCallees ++ [x]))
    fun a ha => by
      rw [HashMap.get_put]
      split
      · exact ⟨_, rfl⟩
      · exact hknown a ((Iteration.mem_list _).mp ha)
  refine ⟨map, ?_, fun a => ?_⟩
  · rw [addValueToMap, if_neg hx, PartA.addValueToMap, if_neg hx]
    dsimp only
    rw [hmap]
    rfl
  -- the new value is none of the keys, so the loop leaves its own list alone
  · rw [hget, HashMap.get_put]
    simp only [Iteration.mem_list]
    split
    · next ha =>
      have hne : a ≠ x := fun heq => hx (heq ▸ ha)
      rw [if_neg hne]
    · rfl

/-- **Step lemma.** A callee line does not fault, does to `location` what it does
in part A, and keeps the invariant. -/
theorem Counted.callee {m : NearBy} {st : State} (h : Counted m st) (ord : CountOrder)
    (x caller : String) :
    ∃ st', (actions ord).callee (.ok st) x caller = .ok st' ∧
      st'.toState = PartA.actions.callee st.toState x caller ∧ Counted m st' := by
  by_cases hx : x ∈ st.nearByCallees
  · refine ⟨st, ?_, ?_, h⟩
    · simp only [actions, ok_bind, addValueToMap, if_pos hx]
      show Except.ok { st with nearByCallees := insert x st.nearByCallees } = .ok st
      rw [Finset.insert_eq_of_mem hx]
    · simp only [PartA.actions, PartA.addValueToMap, if_pos hx, Finset.insert_eq_of_mem hx]
  · obtain ⟨map, hmap, hget⟩ := addValueToMap_spec ord caller h.known hx
    have hnear : (PartA.actions.callee st.toState x caller).nearByCallees =
        insert x st.nearByCallees := by
      simp only [PartA.actions, PartA.addValueToMap, if_neg hx]
    refine ⟨⟨PartA.actions.callee st.toState x caller, map⟩, ?run, rfl, ?known, ?count⟩
    case run =>
      simp only [actions, ok_bind, hmap]
      rfl
    case known =>
      intro a ha
      dsimp only at ha ⊢
      rw [hnear, Finset.mem_insert] at ha
      rw [hget]
      rcases ha with rfl | ha
      · rw [if_neg hx, if_pos rfl]
        exact ⟨_, rfl⟩
      · rw [if_pos ha]
        exact ⟨_, rfl⟩
    case count =>
      intro a b
      have hold := h.count a b
      dsimp only
      rw [hnear]
      unfold Counting.count at hold ⊢
      rw [hget]
      by_cases ha : a ∈ st.nearByCallees
      · -- the list of `a` gets the new callee
        have hax : a ≠ x := fun heq => hx (heq ▸ ha)
        rw [if_pos ha, Option.getD_some, List.count_append, hold, List.count_singleton']
        by_cases hb : b = x
        · subst hb
          simp [ha, hx]
        · simp [ha, hb, Ne.symm hb]
      · rw [if_neg ha]
        by_cases hax : a = x
        · -- the new list starts with the functions of the block, and ends with itself
          subst hax
          rw [if_pos rfl, Option.getD_some, List.count_append, List.count_append, hold,
            List.count_singleton', (Iteration.nodup_list _ _).count]
          by_cases hb : b = a
          · subst hb
            simp [hx]
          · simp [hx, hb, Ne.symm hb]
        · rw [if_neg hax, hold]
          simp [ha, hax]

/-- Every function with a list is in it. -/
def Listed (st : State) : Prop := ∀ a l, st.map.get a = some l → a ∈ l

theorem Listed.callee {m : NearBy} {st st' : State} (h : Listed st) (hinv : Counted m st)
    {ord : CountOrder} {x caller : String}
    (hrun : (actions ord).callee (.ok st) x caller = .ok st') : Listed st' := by
  intro a l hl
  by_cases hx : x ∈ st.nearByCallees
  · simp only [actions, ok_bind, addValueToMap, if_pos hx] at hrun
    obtain rfl := Except.ok.inj hrun
    exact h a l hl
  · obtain ⟨map, hmap, hget⟩ := addValueToMap_spec ord caller hinv.known hx
    simp only [actions, ok_bind, hmap] at hrun
    obtain rfl := Except.ok.inj hrun
    have hl : map.get a = some l := hl
    rw [hget] at hl
    -- the list of `a` grew at its end, or was begun for `a`, or is as before
    split at hl
    · next ha =>
      obtain ⟨l', hl'⟩ := hinv.known a ha
      obtain rfl := Option.some.inj hl
      rw [hl', Option.getD_some]
      exact List.mem_append_left _ (h a l' hl')
    · split at hl
      · next hax =>
        obtain rfl := Option.some.inj hl
        simp [hax]
      · exact h a l hl

/-- **The lines of a block** do not fault, do to `location` what they do in part A,
and keep the invariant. -/
theorem callees_spec (ord : CountOrder) (caller : String) (cs : List String) {m : NearBy}
    {st : State} (h : Counted m st) :
    ∃ st', cs.foldl (fun st callee => (actions ord).callee st callee caller) (.ok st) = .ok st' ∧
      st'.toState = cs.foldl (fun st callee => PartA.actions.callee st callee caller) st.toState ∧
      Counted m st' ∧ (Listed st → Listed st') := by
  induction cs generalizing st with
  | nil => exact ⟨st, rfl, rfl, h, id⟩
  | cons c cs ih =>
    obtain ⟨st₁, h₁, hA, hinv⟩ := h.callee ord c caller
    obtain ⟨st', h₂, hA', hinv', hlisted⟩ := ih hinv
    refine ⟨st', ?_, ?_, hinv', fun hl => hlisted (hl.callee h h₁)⟩
    · rw [List.foldl_cons, h₁, h₂]
    · rw [List.foldl_cons, ← hA, hA']

theorem Counted.header (st : State) : Counted st.map { st with nearByCallees := ∅ } where
  known := by simp
  count := by simp

/-- **A block** does not fault, does to `location` what it does in part A, and puts
each of its functions once more into the list of each. -/
theorem runBlock_spec (ord : CountOrder) (st : State) (b : Block) :
    ∃ st', (actions ord).runBlock (.ok st) b = .ok st' ∧
      st'.toState = PartA.actions.runBlock st.toState b ∧
      ∀ x y, count st'.map x y =
        count st.map x y + if x ∈ b.callees ∧ y ∈ b.callees then 1 else 0 := by
  obtain ⟨st', hst', hA, hinv, -⟩ := callees_spec ord b.caller b.callees (Counted.header st)
  refine ⟨st', hst', hA, fun x y => ?_⟩
  -- at the end of the block `nearByCallees` has all its callees
  have hnear : st'.nearByCallees = b.callees.toFinset := by
    rw [show st'.nearByCallees = st'.toState.nearByCallees from rfl, hA, PartA.callees_nearBy]
    exact Finset.empty_union _
  rw [hinv.count, hnear]
  simp only [List.mem_toFinset]

/-- **A run** does not fault, and counts the blocks that have both functions. -/
theorem count_run (ord : CountOrder) (bs : List Block) :
    ∃ st, bs.foldl (actions ord).runBlock (.ok init) = .ok st ∧
      st.toState = bs.foldl PartA.actions.runBlock PartA.init ∧
      ∀ a b, count st.map a b = bs.countP fun bl => a ∈ bl.callees ∧ b ∈ bl.callees := by
  induction bs using List.reverseRecOn with
  | nil => exact ⟨init, rfl, rfl, fun a b => rfl⟩
  | append_singleton bs bl ih =>
    obtain ⟨st, hst, hA, hcount⟩ := ih
    obtain ⟨st', hst', hA', hcount'⟩ := runBlock_spec ord st bl
    refine ⟨st', ?_, ?_, fun a b => ?_⟩
    · rw [List.foldl_append, hst]
      exact hst'
    · rw [List.foldl_append, ← hA]
      exact hA'
    · rw [hcount', hcount, List.countP_append, List.countP_singleton]
      simp only [decide_eq_true_eq]

/-- The lists count the places of the functions and pairs of `D`. -/
structure Counts (map : NearBy) (D : Database String String) : Prop where
  single : ∀ a, count map a a = (D.single a).card
  pair : ∀ a b, a ≠ b → count map a b = (D.pair a b).card

/-- **Distinct headers.** When no caller heads two blocks, the lists count callers. -/
theorem counts_run {bs : List Block} (hbs : (bs.map Block.caller).Nodup) {map : NearBy}
    (hcount : ∀ a b, count map a b = bs.countP fun bl => a ∈ bl.callees ∧ b ∈ bl.callees) :
    Counts map (siteDatabase bs) where
  single a := by
    show _ = (sites bs (a ∈ ·)).card
    rw [hcount, card_sites hbs]
    simp only [and_self]
  pair a b _ := by
    show _ = (sites bs fun l => a ∈ l ∧ b ∈ l).card
    rw [hcount, card_sites hbs]

-- ---------------------------------------------------------------------------
-- What is printed
-- ---------------------------------------------------------------------------

section Print

variable {D : Database String String} {ord : CountOrder} {st : State} {s : Int} {t : ℚ}

/-- The counts of the list of `a` by pair. -/
theorem get_tally_pair {a b : String} {l : List String} {n : Nat} :
    (tally (fun elem => ({a, elem} : Finset String)) l).get {a, b} = some n ↔
      l.count b = n ∧ n ≠ 0 := by
  rw [get_tally_eq_some_iff, List.count]
  -- `{a, x}` and `{a, b}` are the same key only for `x = b`
  have hcongr : l.countP (fun x => decide (({a, x} : Finset String) = {a, b})) =
      l.countP (· == b) := by
    refine List.countP_congr fun x _ => ?_
    rw [decide_eq_true_eq, beq_iff_eq]
    exact ⟨fun h => (pair_right_inj h).symm, fun h => by rw [h]⟩
  rw [hcongr]

theorem exists_pair_of_tally {a : String} {l : List String} {k : Finset String} {n : Nat}
    (h : (tally (fun elem => ({a, elem} : Finset String)) l).get k = some n) :
    ∃ b, k = {a, b} := by
  obtain ⟨hcount, hn⟩ := get_tally_eq_some_iff.mp h
  obtain ⟨b, -, hb⟩ := List.countP_pos_iff.mp (Nat.pos_of_ne_zero (hcount ▸ hn))
  exact ⟨b, (of_decide_eq_true hb).symm⟩

/-- The loop over `countMap` prints the violations of the rules for its key. -/
theorem printKey_prints (hloc : Records st.location D) (hcounts : Counts st.map D) {a : String}
    (ha : a ∈ st.map.keySet) :
    Prints (printKey ord st s t a)
      fun line => ∃ b c, D.Violation s t a b c ∧ line = bugLine D a b c := by
  obtain ⟨l, hl⟩ := HashMap.exists_get_of_mem ha
  have hcount : ∀ b, l.count b = count st.map a b := fun b => by
    rw [count, hl, Option.getD_some]
  -- a pair that occurs is counted, and its function with it
  have hpair : ∀ b, a ≠ b → (D.pair a b).Nonempty →
      (tally (fun elem => ({a, elem} : Finset String)) l).get {a, b} = some (D.pair a b).card :=
    fun b hab hne => get_tally_pair.mpr
      ⟨by rw [hcount, hcounts.pair a b hab], (Finset.card_pos.mpr hne).ne'⟩
  have hsingle : (D.single a).Nonempty →
      (tally (fun elem => ({a, elem} : Finset String)) l).get {a} = some (D.single a).card :=
    fun hne => by
      rw [← Finset.pair_eq_singleton, get_tally_pair, hcount, hcounts.single]
      exact ⟨rfl, (Finset.card_pos.mpr hne).ne'⟩
  simp only [printKey, hl, deref_some, ok_bind]
  refine (Prints.loop (P := fun k line => ∃ b c, k = {a, b} ∧ D.Violation s t a b c ∧
    line = bugLine D a b c) (Iteration.nodup_list ..) ?round ?once).congr ?same
  case round =>
    intro k hk
    rw [Iteration.mem_list] at hk
    obtain ⟨n, hn⟩ := HashMap.exists_get_of_mem hk
    obtain ⟨b, rfl⟩ := exists_pair_of_tally hn
    -- the key of `a` alone is the one the loop skips
    by_cases hab : a = b
    · subst hab
      rw [if_neg (by simp)]
      refine Prints.nil ?_
      rintro x ⟨b, c, hkey, hviol, -⟩
      exact hviol.ne (pair_right_inj hkey).symm
    · have hkey : ({a, b} : Finset String) ≠ {a} := fun h =>
        hab (pair_right_inj (h.trans (Finset.pair_eq_singleton a).symm))
      have hne : (D.pair a b).Nonempty := by
        obtain ⟨hcb, hpos⟩ := get_tally_pair.mp hn
        rw [hcount, hcounts.pair a b hab] at hcb
        exact Finset.card_pos.mp (Nat.pos_of_ne_zero (hcb ▸ hpos))
      rw [if_pos hkey, hpair b hab hne, hsingle (hne.mono (D.pair_subset a b)), deref_some, ok_bind,
        deref_some, ok_bind]
      refine (printQualified_prints (fun _ _ _ => false) hloc hab hne fun _ _ => rfl).congr
        fun x => ?_
      simp only [true_and]
  case once =>
    rintro k - k' - x ⟨b, c, rfl, -, rfl⟩ ⟨b', c', rfl, -, h⟩
    rw [(bugLine_inj h).2.1]
  case same =>
    intro x
    constructor
    · intro h
      obtain ⟨k, -, b, c, -, hviol, hx⟩ := h
      exact ⟨b, c, hviol, hx⟩
    · intro h
      obtain ⟨b, c, hviol, hx⟩ := h
      refine ⟨{a, b}, ?_, b, c, rfl, hviol, hx⟩
      rw [Iteration.mem_list]
      exact HashMap.mem_keySet_of_get (hpair b hviol.ne hviol.occurs)

/-- **What is printed**: the violations, each once. -/
theorem printBug_prints (ord : CountOrder) (s : Int) (t : ℚ) (hloc : Records st.location D)
    (hcounts : Counts st.map D) :
    Prints (printBug ord st s t)
      fun line => ∃ a b c, D.Violation s t a b c ∧ line = bugLine D a b c := by
  refine (Prints.loop (P := fun a line => ∃ b c, D.Violation s t a b c ∧
    line = bugLine D a b c) (Iteration.nodup_list ..) ?round ?once).congr ?same
  case round =>
    intro a ha
    exact printKey_prints hloc hcounts ((Iteration.mem_list _).mp ha)
  case once =>
    rintro a - a' - x ⟨b, c, -, rfl⟩ ⟨b', c', -, h⟩
    exact (bugLine_inj h).1
  case same =>
    intro x
    constructor
    · intro h
      obtain ⟨a, -, b, c, h⟩ := h
      exact ⟨a, b, c, h⟩
    · intro h
      obtain ⟨a, b, c, hviol, hx⟩ := h
      refine ⟨a, ?_, b, c, hviol, hx⟩
      rw [Iteration.mem_list]
      -- a function with callers has a list
      by_contra hnone
      have hcount := hcounts.single a
      rw [count, HashMap.get_eq_none hnone, Option.getD_none, List.count_nil] at hcount
      exact (Finset.card_pos.mpr ⟨c, hviol.mem⟩).ne hcount

end Print

/-- **Two versions of part A.** When no caller heads two blocks, the version that
counts and the one that takes the sizes of the caller sets print the same lines,
for all thresholds and whatever the orders of their loops. -/
theorem run_perm_partA (ord : CountOrder) (ordA : PrintOrder) {bs : List Block} (s : Int) (t : ℚ)
    (hbs : (bs.map Block.caller).Nodup) :
    ∃ out outA, run ord bs s t = .ok out ∧ PartA.run ordA bs s t = .ok outA ∧
      out.Perm outA := by
  obtain ⟨st, hst, hA, hcount⟩ := count_run ord bs
  have hloc : Records st.location (siteDatabase bs) := by
    rw [show st.location = st.toState.location from rfl, hA]
    exact PartA.records_location bs
  have hprints := printBug_prints ord s t hloc (counts_run hbs hcount)
  rw [run, hst]
  exact hprints.perm (PartA.run_prints ordA bs s t)

theorem run_perm_partA_test2 :
    ∃ out outA, run default test2 3 (65 / 100) = .ok out ∧
      PartA.run default test2 3 (65 / 100) = .ok outA ∧ out.Perm outA :=
  run_perm_partA default default 3 (65 / 100) (by decide)

end Pipair.Counting
