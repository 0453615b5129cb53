import Pipair.Library.HashMap
import Mathlib.Data.Finset.Insert
import Mathlib.Tactic.Tauto

/-!
# Inverted indexes

An inverted index maps a key to the set of places the key was seen at. The only
way a program fills one is `add`: fetch the set of the key, or a new one, and
put the place into it. So no key is ever bound to the empty set, which the
structure carries as a field, and an index is determined by the sets it holds
(`Index.ext_get`).

The main tool is `mem_get_foldl`: what a run over a list of events puts into an
index is read off from what one event puts into it.
-/

universe u v w

/-- A finite map from keys to nonempty sets of places. -/
structure Index (κ : Type u) (γ : Type v) where
  map : HashMap κ (Finset γ)
  nonempty : ∀ {k s}, map.get k = some s → s.Nonempty

namespace Index

variable {κ : Type u} {γ : Type v}

/-- The index that has seen nothing. -/
def empty : Index κ γ where
  map := HashMap.empty
  nonempty h := by simp at h

def lookup (m : Index κ γ) (k : κ) : Option (Finset γ) := m.map.get k

def keys (m : Index κ γ) : Finset κ := m.map.keySet

/-- The places of a key, none when the key is not bound. -/
def get (m : Index κ γ) (k : κ) : Finset γ := (m.lookup k).getD ∅

/-- Put the place `c` into the set of `k`, a new one when `k` is not bound. -/
def add [DecidableEq κ] [DecidableEq γ] (m : Index κ γ) (k : κ) (c : γ) : Index κ γ where
  map := m.map.put k (insert c (m.get k))
  nonempty := by
    intro k' s h
    rw [HashMap.get_put] at h
    split at h
    · exact Option.some.inj h ▸ Finset.insert_nonempty ..
    · exact m.nonempty h

@[simp] theorem get_empty (k : κ) : (empty : Index κ γ).get k = ∅ := rfl

theorem get_add [DecidableEq κ] [DecidableEq γ] (m : Index κ γ) (k k' : κ) (c : γ) :
    (m.add k c).get k' = if k' = k then insert c (m.get k) else m.get k' := by
  unfold get lookup add
  rw [HashMap.get_put]
  split <;> rfl

theorem mem_get_add [DecidableEq κ] [DecidableEq γ] {m : Index κ γ} {k k' : κ} {c c' : γ} :
    c' ∈ (m.add k c).get k' ↔ c' ∈ m.get k' ∨ (k' = k ∧ c' = c) := by
  rw [get_add]
  split
  · next h => rw [Finset.mem_insert, h]; tauto
  · next h => simp [h]

/-! ## Bound keys -/

theorem lookup_eq_some_iff {m : Index κ γ} {k : κ} {s : Finset γ} :
    m.lookup k = some s ↔ m.get k = s ∧ s.Nonempty := by
  unfold get
  constructor
  · intro h
    exact ⟨by rw [h]; rfl, m.nonempty h⟩
  · rintro ⟨rfl, hne⟩
    cases h : m.lookup k with
    | none => simp [h] at hne
    | some s => rfl

theorem mem_keys_iff {m : Index κ γ} {k : κ} : k ∈ m.keys ↔ (m.get k).Nonempty := by
  rw [keys, m.map.mem_keySet, Option.isSome_iff_exists]
  constructor
  · rintro ⟨s, hs⟩
    obtain ⟨h, hne⟩ := lookup_eq_some_iff.mp hs
    exact h ▸ hne
  · intro hne
    exact ⟨_, lookup_eq_some_iff.mpr ⟨rfl, hne⟩⟩

/-- A bound key is bound to its places. -/
theorem lookup_of_mem_keys {m : Index κ γ} {k : κ} (h : k ∈ m.keys) :
    m.lookup k = some (m.get k) :=
  lookup_eq_some_iff.mpr ⟨rfl, mem_keys_iff.mp h⟩

theorem lookup_eq_none_iff {m : Index κ γ} {k : κ} : m.lookup k = none ↔ m.get k = ∅ := by
  cases h : m.lookup k with
  | none => simp [get, h]
  | some s =>
    obtain ⟨hs, hne⟩ := lookup_eq_some_iff.mp h
    simp [hs, hne.ne_empty]

/-- Two indexes with the same places at every key are the same. -/
theorem ext_get {m m' : Index κ γ} (h : ∀ k, m.get k = m'.get k) : m = m' := by
  have hmap : m.map = m'.map := by
    apply HashMap.ext_get
    intro k
    show m.lookup k = m'.lookup k
    -- the sets decide which keys are bound: a bound key has a nonempty one
    cases hk : m'.lookup k with
    | none => rw [lookup_eq_none_iff, h, ← lookup_eq_none_iff, hk]
    | some s => rw [lookup_eq_some_iff, h, ← lookup_eq_some_iff, hk]
  cases m
  cases m'
  simp only at hmap
  subst hmap
  rfl

/-! ## Filling an index -/

section Fill

variable {α : Type w} [DecidableEq κ] [DecidableEq γ]

/-- The order of two additions does not matter. -/
theorem add_comm (m : Index κ γ) (k k' : κ) (c c' : γ) :
    (m.add k c).add k' c' = (m.add k' c').add k c := by
  apply ext_get
  intro j
  ext x
  simp only [mem_get_add]
  tauto

instance (key : α → κ) (c : γ) :
    RightCommutative fun (m : Index κ γ) (a : α) => m.add (key a) c :=
  ⟨fun m a b => add_comm m (key a) (key b) c c⟩

/-- Put the place `c` under the key of every element of a set. The additions
commute, so the loop may present the elements in any order. -/
def addEach (m : Index κ γ) (s : Finset α) (key : α → κ) (c : γ) : Index κ γ :=
  s.val.foldl (fun m a => m.add (key a) c) m

theorem addEach_eq_list (m : Index κ γ) {s : Finset α} {l : List α}
    (hl : (l : Multiset α) = s.val) (key : α → κ) (c : γ) :
    m.addEach s key c = l.foldl (fun m a => m.add (key a) c) m := by
  rw [addEach, ← hl, Multiset.coe_foldl]

theorem mem_get_foldl_add {m : Index κ γ} {l : List α} {key : α → κ} {c c' : γ} {k : κ} :
    c' ∈ (l.foldl (fun m a => m.add (key a) c) m).get k ↔
      c' ∈ m.get k ∨ ((∃ a ∈ l, k = key a) ∧ c' = c) := by
  induction l generalizing m with
  | nil => simp
  | cons a l ih =>
    rw [List.foldl_cons, ih, mem_get_add]
    simp only [List.exists_mem_cons_iff]
    tauto

theorem mem_get_addEach {m : Index κ γ} {s : Finset α} {key : α → κ} {c c' : γ} {k : κ} :
    c' ∈ (m.addEach s key c).get k ↔ c' ∈ m.get k ∨ ((∃ a ∈ s, k = key a) ∧ c' = c) := by
  obtain ⟨l, hl⟩ := Quotient.exists_rep s.val
  have hl : (l : Multiset α) = s.val := hl
  -- any list of the elements will do
  rw [addEach_eq_list m hl, mem_get_foldl_add]
  simp only [← Finset.mem_val, ← hl, Multiset.mem_coe]

end Fill

/-- **Run lemma.** When every event `b` adds to the index exactly the places
`P b`, a run adds the places of its events. -/
theorem mem_get_foldl {σ : Type*} {β : Type*} {step : σ → β → σ} (index : σ → Index κ γ)
    {P : β → κ → γ → Prop}
    (hstep : ∀ st b k c, c ∈ (index (step st b)).get k ↔ c ∈ (index st).get k ∨ P b k c)
    (bs : List β) (st : σ) (k : κ) (c : γ) :
    c ∈ (index (bs.foldl step st)).get k ↔ c ∈ (index st).get k ∨ ∃ b ∈ bs, P b k c := by
  induction bs generalizing st with
  | nil => simp
  | cons b bs ih =>
    rw [List.foldl_cons, ih, hstep]
    simp only [List.exists_mem_cons_iff]
    tauto

end Index
