import Mathlib.Data.Finset.Dedup
import Mathlib.Data.Finset.Card
import Mathlib.Algebra.Order.Group.Multiset

/-!
# Iteration orders and printing loops

A hash container holds a finite set and presents it to a `for` loop in an order
that depends on hash codes, capacity and insertion history. `Iteration α` is
any such order: a list of the elements of a set, each of them once. A program
that is parametrised by iterations is a program under every order of its loops.
Containers that were filled in different ways have different iterations, also
when they hold the same set.

`forEach` is a loop whose body may fail and otherwise produces output; the
output of the loop is the output of its rounds, one after the other.
-/

universe u v w

/-- An order in which the elements of every finite set are presented. -/
structure Iteration (α : Type u) where
  list : Finset α → List α
  coe_list : ∀ s, (list s : Multiset α) = s.val

namespace Iteration

variable {α : Type u}

@[simp] theorem mem_list (it : Iteration α) {s : Finset α} {a : α} :
    a ∈ it.list s ↔ a ∈ s := by
  rw [← Multiset.mem_coe, it.coe_list, Finset.mem_val]

theorem nodup_list (it : Iteration α) (s : Finset α) : (it.list s).Nodup := by
  rw [← Multiset.coe_nodup, it.coe_list]
  exact s.nodup

@[simp] theorem length_list (it : Iteration α) (s : Finset α) :
    (it.list s).length = s.card := by
  rw [← Multiset.coe_card, it.coe_list, Finset.card_val]

theorem list_toFinset [DecidableEq α] (it : Iteration α) (s : Finset α) :
    (it.list s).toFinset = s := by
  ext a
  simp

@[simp] theorem list_singleton (it : Iteration α) (a : α) : it.list {a} = [a] := by
  have h := it.coe_list {a}
  rw [Finset.singleton_val] at h
  exact Multiset.coe_eq_singleton.mp h

/-- A two-element set is presented in one of two ways. -/
theorem list_pair [DecidableEq α] (it : Iteration α) {a b : α} (hab : a ≠ b) :
    it.list {a, b} = [a, b] ∨ it.list {a, b} = [b, a] := by
  -- a list of two elements without duplicates, and both are of the pair
  have hlen : (it.list {a, b}).length = 2 := by
    rw [length_list, Finset.card_pair hab]
  obtain ⟨x, y, hxy⟩ := List.length_eq_two.mp hlen
  have hnd := it.nodup_list {a, b}
  have hx : x ∈ ({a, b} : Finset α) := it.mem_list.mp (by simp [hxy])
  have hy : y ∈ ({a, b} : Finset α) := it.mem_list.mp (by simp [hxy])
  rw [hxy] at hnd ⊢
  simp only [List.nodup_cons, List.mem_singleton] at hnd
  simp only [Finset.mem_insert, Finset.mem_singleton] at hx hy
  rcases hx with rfl | rfl <;> rcases hy with rfl | rfl <;> simp_all

/-- Some order or other. -/
noncomputable def arbitrary (α : Type u) : Iteration α where
  list := Finset.toList
  coe_list := Finset.coe_toList

noncomputable instance : Inhabited (Iteration α) := ⟨arbitrary α⟩

/-- The order that presents the elements of `ref` in the order of `ref`; sets
with other elements are presented as by `it`. -/
def follow [DecidableEq α] (it : Iteration α) (ref : List α) : Iteration α where
  list s := if s ⊆ ref.toFinset then ref.dedup.filter (· ∈ s) else it.list s
  coe_list s := by
    split
    · next hsub =>
      -- `ref` has all the elements of `s`, so filtering it leaves exactly those
      have hnd : (ref.dedup.filter (· ∈ s)).Nodup := ref.nodup_dedup.filter _
      have heq : (ref.dedup.filter (· ∈ s)).toFinset = s := by
        ext a
        have := @hsub a
        simp at this ⊢
        tauto
      conv_rhs => rw [← heq]
      rw [List.toFinset_val, hnd.dedup]
    · exact it.coe_list s

/-- The order `it` with `q` put off to the end. -/
def putOff [DecidableEq α] (it : Iteration α) (q : α) : Iteration α where
  list s := it.list (s.erase q) ++ if q ∈ s then [q] else []
  coe_list s := by
    rw [← Multiset.coe_add, it.coe_list]
    split
    · next hq =>
      rw [Finset.erase_val, Multiset.coe_singleton, add_comm, Multiset.singleton_add,
        Multiset.cons_erase (Finset.mem_val.mpr hq)]
    · next hq => rw [Finset.erase_eq_of_notMem hq, Multiset.coe_nil, add_zero]

theorem list_putOff [DecidableEq α] (it : Iteration α) {q : α} {s : Finset α} (hq : q ∈ s) :
    (it.putOff q).list s = it.list (s.erase q) ++ [q] := by
  simp [putOff, hq]

end Iteration

/-- A loop over `l` whose body may fail and otherwise produces output. -/
def forEach {ε : Type u} {α : Type v} {β : Type w} (body : α → Except ε (List β)) :
    List α → Except ε (List β)
  | [] => .ok []
  | a :: l =>
    match body a with
    | .error e => .error e
    | .ok out =>
      match forEach body l with
      | .error e => .error e
      | .ok rest => .ok (out ++ rest)

/-- A loop all of whose rounds succeed succeeds. -/
theorem exists_forEach {ε : Type u} {α : Type v} {β : Type w} {body : α → Except ε (List β)}
    {l : List α} (h : ∀ a ∈ l, ∃ out, body a = .ok out) : ∃ out, forEach body l = .ok out := by
  induction l with
  | nil => exact ⟨[], rfl⟩
  | cons a l ih =>
    obtain ⟨out, hout⟩ := h a (List.mem_cons_self ..)
    obtain ⟨rest, hrest⟩ := ih fun b hb => h b (List.mem_cons_of_mem _ hb)
    exact ⟨out ++ rest, by rw [forEach, hout, hrest]⟩

/-- A loop whose rounds produce the output of another loop, changed item by item. -/
theorem forEach_map {ε : Type u} {α : Type v} {β γ : Type w} {body : α → Except ε (List β)}
    {body' : α → Except ε (List γ)} (f : β → γ) {l : List α}
    (h : ∀ a ∈ l, body' a = (body a).map (List.map f)) :
    forEach body' l = (forEach body l).map (List.map f) := by
  induction l with
  | nil => rfl
  | cons a l ih =>
    rw [forEach, forEach, h a (List.mem_cons_self ..),
      ih fun b hb => h b (List.mem_cons_of_mem _ hb)]
    cases body a with
    | error e => rfl
    | ok out =>
      cases forEach body l with
      | error e => rfl
      | ok rest => simp [Except.map]

/-! ## What a loop prints -/

/-- The run succeeds and prints exactly the lines in `P`, each of them once. -/
def Prints {ε : Type u} {β : Type v} (run : Except ε (List β)) (P : β → Prop) : Prop :=
  ∃ out, run = .ok out ∧ out.Nodup ∧ ∀ x, x ∈ out ↔ P x

namespace Prints

variable {ε : Type u} {α : Type v} {β : Type w} {run run' : Except ε (List β)} {P Q : β → Prop}

theorem congr (h : Prints run P) (hPQ : ∀ x, P x ↔ Q x) : Prints run Q := by
  obtain ⟨out, hrun, hnd, hmem⟩ := h
  exact ⟨out, hrun, hnd, fun x => (hmem x).trans (hPQ x)⟩

/-- A run that prints nothing. -/
theorem nil (h : ∀ x, ¬ P x) : Prints (.ok [] : Except ε (List β)) P :=
  ⟨[], rfl, List.nodup_nil, fun x => by simp [h x]⟩

/-- A run that prints one line. -/
theorem single (x : β) : Prints (.ok [x] : Except ε (List β)) (· = x) :=
  ⟨[x], rfl, List.nodup_singleton x, fun y => by simp⟩

/-- The lines of a run that is known to succeed. -/
theorem mem_iff (h : Prints run P) {out : List β} (hrun : run = .ok out) (x : β) :
    x ∈ out ↔ P x := by
  obtain ⟨out', hrun', -, hmem⟩ := h
  rw [hrun, Except.ok.injEq] at hrun'
  rw [hrun', hmem]

/-- Two runs that print the same lines agree up to the order. -/
theorem perm (h : Prints run P) (h' : Prints run' P) :
    ∃ out out', run = .ok out ∧ run' = .ok out' ∧ out.Perm out' := by
  obtain ⟨out, hrun, hnd, hmem⟩ := h
  obtain ⟨out', hrun', hnd', hmem'⟩ := h'
  refine ⟨out, out', hrun, hrun', ?_⟩
  rw [List.perm_ext_iff_of_nodup hnd hnd']
  exact fun x => (hmem x).trans (hmem' x).symm

/-- A run that prints the lines of another one which pass a test. -/
theorem perm_filter (h : Prints run P) {q : β → Bool}
    (h' : Prints run' fun x => P x ∧ q x = true) :
    ∃ out out', run = .ok out ∧ run' = .ok out' ∧ out'.Perm (out.filter q) := by
  obtain ⟨out, hrun, hnd, hmem⟩ := h
  obtain ⟨out', hrun', hnd', hmem'⟩ := h'
  refine ⟨out, out', hrun, hrun', ?_⟩
  rw [List.perm_ext_iff_of_nodup hnd' (hnd.filter q)]
  intro x
  rw [hmem', List.mem_filter, hmem]

/-- **Loop rule.** When every round prints the lines in `P a` and no two rounds
print the same line, the loop prints the lines of its rounds. -/
theorem loop {body : α → Except ε (List β)} {P : α → β → Prop} {l : List α} (hl : l.Nodup)
    (hbody : ∀ a ∈ l, Prints (body a) (P a))
    (hdisj : ∀ a ∈ l, ∀ a' ∈ l, ∀ x, P a x → P a' x → a = a') :
    Prints (forEach body l) fun x => ∃ a ∈ l, P a x := by
  induction l with
  | nil => exact nil (by simp)
  | cons a l ih =>
    rw [List.nodup_cons] at hl
    obtain ⟨out, hrun, hnd, hmem⟩ := hbody a (List.mem_cons_self ..)
    obtain ⟨rest, hrest, hnd', hmem'⟩ := ih hl.2
      (fun b hb => hbody b (List.mem_cons_of_mem _ hb))
      (fun b hb b' hb' => hdisj b (List.mem_cons_of_mem _ hb) b' (List.mem_cons_of_mem _ hb'))
    refine ⟨out ++ rest, ?_, ?_, ?_⟩
    · rw [forEach, hrun, hrest]
    · rw [List.nodup_append]
      refine ⟨hnd, hnd', ?_⟩
      -- two rounds that print the same line are the same round, and this one does not come again
      rintro x hx y hy rfl
      obtain ⟨a', ha', hP⟩ := (hmem' x).mp hy
      have heq := hdisj a (List.mem_cons_self ..) a' (List.mem_cons_of_mem _ ha') x
        ((hmem x).mp hx) hP
      exact hl.1 (heq ▸ ha')
    · intro x
      simp only [List.mem_append, hmem, hmem', List.exists_mem_cons_iff]

end Prints
