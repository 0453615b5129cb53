import Pipair.PartC.Run

/-!
# The two call-graph stores

`Group63/pi/partC/pipair_java.java` keeps the call graph twice. `location` is
filled line by line and merges the blocks of a caller; `callerCallee` is put once
at the end of a block and replaces what an earlier block of the caller left there.
`printBug` chooses the lines from the first and searches the second.

The stores agree when no caller heads two blocks. In general they agree exactly
when the block that `callerCallee` keeps for a caller lists what the earlier ones
listed (`stores_agree_iff`).
-/

namespace Pipair.PartC

-- ---------------------------------------------------------------------------
-- Agreement
-- ---------------------------------------------------------------------------

/-- A caller is stored with a function in one map exactly when it is in the other. -/
def StoresAgree (st : State) : Prop :=
  ∀ c a, c ∈ st.location.get {a} ↔ ∃ s, st.callerCallee.get c = some s ∧ a ∈ s

/-- The callees of all the blocks are in `callerCallee`. -/
def KeepsCallees (bs : List Block) (st : State) : Prop :=
  ∀ b ∈ bs, ∀ a ∈ b.callees, ∃ s, st.callerCallee.get b.caller = some s ∧ a ∈ s

/-- A block with callees that no later block of its caller replaces lists all the
callees of the earlier blocks of its caller. -/
def LastListsAll (bs : List Block) : Prop :=
  ∀ pre b post, bs = pre ++ b :: post → b.callees ≠ [] →
    (∀ b' ∈ post, b'.caller = b.caller → b'.callees = []) →
    ∀ b' ∈ pre, b'.caller = b.caller → b'.callees ⊆ b.callees

/-- Every block with callees lists all the callees of the earlier blocks of its caller. -/
def EachListsAll (bs : List Block) : Prop :=
  bs.Pairwise fun b b' => b.caller = b'.caller → b'.callees ≠ [] → b.callees ⊆ b'.callees

variable {bs : List Block}

theorem mem_location_single {a c : String} :
    c ∈ (stateOf bs).location.get {a} ↔ ∃ b ∈ bs, c = b.caller ∧ a ∈ b.callees := by
  rw [(records_stateOf bs).single]
  exact mem_sites (p := (a ∈ ·))

/-- What is stored for a caller was listed by one of its blocks. -/
theorem exists_block_of_callerCallee {c a : String} {s : Finset String}
    (hs : (stateOf bs).callerCallee.get c = some s) (ha : a ∈ s) :
    ∃ b ∈ bs, c = b.caller ∧ a ∈ b.callees := by
  rw [stateOf_callerCallee, get_lastCallees_iff] at hs
  obtain ⟨pre, b, post, rfl, rfl, -, -, rfl⟩ := hs
  exact ⟨b, by simp, rfl, List.mem_toFinset.mp ha⟩

/-- So the stores agree as soon as no callee is lost. -/
theorem KeepsCallees.agree (h : KeepsCallees bs (stateOf bs)) : StoresAgree (stateOf bs) := by
  intro c a
  rw [mem_location_single]
  constructor
  · intro hex
    obtain ⟨b, hb, rfl, ha⟩ := hex
    exact h b hb a ha
  · intro hex
    obtain ⟨s, hs, ha⟩ := hex
    exact exists_block_of_callerCallee hs ha

/-- **A run loses no callee** exactly when the blocks it keeps list all. -/
theorem keepsCallees_iff : KeepsCallees bs (stateOf bs) ↔ LastListsAll bs := by
  unfold KeepsCallees
  rw [stateOf_callerCallee]
  constructor
  · intro h pre b post hbs hne hpost b' hb' hcaller a ha
    -- `b` is the block that is kept, so what is kept for its caller are its callees
    have hkept : (lastCallees bs).get b'.caller = some b.callees.toFinset :=
      get_lastCallees_iff.mpr ⟨pre, b, post, hbs, hcaller.symm, hne,
        fun b'' hb'' hc => hpost b'' hb'' (hc.trans hcaller), rfl⟩
    obtain ⟨s, hs, has⟩ := h b' (by simp [hbs, hb']) a ha
    obtain rfl := Option.some.inj (hkept.symm.trans hs)
    exact List.mem_toFinset.mp has
  · intro h b hb a ha
    obtain ⟨s, hs⟩ := exists_lastCallees (mem_sites (p := (a ∈ ·)).mpr ⟨b, hb, rfl, ha⟩)
    refine ⟨s, hs, ?_⟩
    obtain ⟨pre, b₁, post, hbs, hcaller, hne, hpost, rfl⟩ := get_lastCallees_iff.mp hs
    rw [List.mem_toFinset]
    -- `b` stands before the block that is kept, or is that block; later blocks list nothing
    rw [hbs, List.mem_append, List.mem_cons] at hb
    rcases hb with hb | rfl | hb
    · exact h pre b₁ post hbs hne (fun b' hb' hc => hpost b' hb' (hc.trans hcaller)) b hb
        hcaller.symm ha
    · exact ha
    · rw [hpost b hb rfl] at ha
      exact absurd ha List.not_mem_nil

/-- The blocks kept after each part of a run are all its blocks with callees. -/
theorem eachListsAll_iff :
    EachListsAll bs ↔ ∀ pre post, bs = pre ++ post → LastListsAll pre := by
  constructor
  · intro h pre post hbs pre' b post' hpre hne _ b' hb' hcaller
    subst hbs hpre
    unfold EachListsAll at h
    rw [List.append_assoc, List.pairwise_append] at h
    exact h.2.2 b' hb' b (by simp) hcaller hne
  · intro h
    induction bs using List.reverseRecOn with
    | nil => exact List.Pairwise.nil
    | append_singleton bs b ih =>
      have hinit : EachListsAll bs :=
        ih fun pre post hbs => h pre (post ++ [b]) (by rw [hbs, List.append_assoc])
      refine List.pairwise_append.mpr ⟨hinit, List.pairwise_singleton .., ?_⟩
      intro b' hb' b₁ hb₁ hcaller hne
      obtain rfl := List.mem_singleton.mp hb₁
      exact h (bs ++ [b₁]) [] (by simp) bs b₁ [] rfl hne (by simp) b' hb' hcaller

/-- In particular no callee is lost when no caller heads two blocks. -/
theorem eachListsAll_of_nodup (hbs : (bs.map Block.caller).Nodup) : EachListsAll bs := by
  rw [List.Nodup, List.pairwise_map] at hbs
  exact hbs.imp fun hne heq => absurd heq hne

theorem agree_and_keeps_iff :
    StoresAgree (stateOf bs) ∧ KeepsCallees bs (stateOf bs) ↔ LastListsAll bs := by
  rw [← keepsCallees_iff]
  exact ⟨fun h => h.2, fun h => ⟨h.agree, h⟩⟩

/--
**When the stores agree.**

1. After the blocks `bs` the stores agree and no callee is lost exactly when, for
   every caller, the last block that lists callees lists those of the earlier ones.
2. In particular after the scan of a text.
3. They agree after every block of a run exactly when every block that lists
   callees lists those of the earlier blocks of its caller.
4. So they do when no caller heads two blocks.
-/
theorem stores_agree_iff (bs : List Block) (text : List Char) :
    (StoresAgree (stateOf bs) ∧ KeepsCallees bs (stateOf bs) ↔ LastListsAll bs) ∧
    (StoresAgree (scanLoop actions text init) ∧
      KeepsCallees (blocks text) (scanLoop actions text init) ↔ LastListsAll (blocks text)) ∧
    ((∀ pre post, bs = pre ++ post →
        StoresAgree (stateOf pre) ∧ KeepsCallees pre (stateOf pre)) ↔ EachListsAll bs) ∧
    ((bs.map Block.caller).Nodup → EachListsAll bs) := by
  refine ⟨agree_and_keeps_iff, ?_, ?_, eachListsAll_of_nodup⟩
  · rw [scanLoop_eq_blocks]
    exact agree_and_keeps_iff
  · rw [eachListsAll_iff]
    simp only [agree_and_keeps_iff]

/-- Two nodes of one function. -/
def twice : List Char := String.toList <|
  "Call graph node for function: 'f'<<0x1>>  #uses=1\n  CS<0x2> calls function 'A'\n\n" ++
  "Call graph node for function: 'f'<<0x1>>  #uses=1\n  CS<0x2> calls function 'B'\n\n"

/-- After the scan of `twice`, `f` is in `location` as a caller of `A`, and the callees
stored for it are those of its second block. -/
theorem stores_disagree :
    ¬ ∀ text, StoresAgree (scanLoop actions text init) ∧
      KeepsCallees (blocks text) (scanLoop actions text init) := by
  intro h
  have hlocation : "f" ∈ (scanLoop actions twice init).location.get {"A"} := by decide +kernel
  have hstored : (scanLoop actions twice init).callerCallee.get "f" = some {"B"} := by
    decide +kernel
  obtain ⟨s, hs, ha⟩ := ((h twice).1 "f" "A").mp hlocation
  obtain rfl := Option.some.inj (hstored.symm.trans hs)
  exact absurd ha (by decide)

end Pipair.PartC
