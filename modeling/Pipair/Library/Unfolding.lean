import Pipair.Library.Walk
import Mathlib.Algebra.Order.BigOperators.Group.List
import Mathlib.Algebra.Order.Group.Nat
import Mathlib.Algebra.Order.Group.Multiset

/-!
# Unfolding a graph

The unfolding of a graph from a vertex is the tree of the walks from it: every
node has one child for each successor of its label, down to a given depth. Its
leaves are the ends of the walks that are as long as the tree is deep, and of the
shorter ones that cannot be continued (`leaf_unfold_iff`). Their number is bounded by a
power of the number of successors (`length_leaves_unfold_le`).

A program may compute the leaves with one list for all the work: take a pending
vertex out, put its successors in, and go on with each of these. `foldl_replace`
is the balance of such a loop: the pending elements have been exchanged for their
parts.
-/

universe u

/-- A tree with labels and lists of subtrees. -/
inductive RoseTree (α : Type u)
  | node (label : α) (children : List (RoseTree α))

namespace RoseTree

variable {α : Type u}

/-- The labels of the nodes without children, from left to right. -/
def leaves : RoseTree α → List α
  | .node label children => if children.isEmpty then [label] else children.flatMap leaves

/-- There is a node without children at the depth `d`, with the label `a`. -/
inductive Leaf : RoseTree α → Nat → α → Prop
  | here (a : α) : Leaf (.node a []) 0 a
  | child {b a : α} {children : List (RoseTree α)} {t : RoseTree α} {d : Nat} :
      t ∈ children → Leaf t d a → Leaf (.node b children) (d + 1) a

/-- The unfolding of a graph to depth `n`. -/
def unfold (successors : α → List α) : Nat → α → RoseTree α
  | 0, a => .node a []
  | n + 1, a => .node a ((successors a).map (unfold successors n))

section Unfold

variable {successors : α → List α} {n d : Nat} {a b : α}

theorem leaves_unfold_zero : leaves (unfold successors 0 a) = [a] := by
  rw [unfold, leaves]
  rfl

theorem leaves_unfold_nil (h : successors a = []) : leaves (unfold successors n a) = [a] := by
  cases n with
  | zero => exact leaves_unfold_zero
  | succ n =>
    rw [unfold, h, leaves]
    rfl

theorem leaves_unfold_succ (h : successors a ≠ []) :
    leaves (unfold successors (n + 1) a) =
      (successors a).flatMap fun b => leaves (unfold successors n b) := by
  rw [unfold, leaves, if_neg (by simpa using h), List.flatMap_map]

/-- **The leaves of an unfolding**: the ends of the walks of full length, and of
those that end where there is no successor. -/
theorem leaf_unfold_iff :
    Leaf (unfold successors n a) d b ↔
      Walk (fun x y => y ∈ successors x) d a b ∧ (d = n ∨ (d < n ∧ successors b = [])) := by
  induction n generalizing a d with
  | zero =>
    rw [unfold]
    constructor
    · intro h
      cases h with
      | here => exact ⟨.refl _, Or.inl rfl⟩
      | child ht => exact absurd ht List.not_mem_nil
    · intro h
      obtain ⟨hw, rfl | ⟨hlt, -⟩⟩ := h
      · obtain rfl := Walk.zero_iff.mp hw
        exact .here _
      · exact absurd hlt (Nat.not_lt_zero d)
  | succ n ih =>
    rw [unfold]
    constructor
    · intro h
      -- the node itself is a leaf when it has no successor
      generalize hc : (successors a).map (unfold successors n) = children at h
      cases h with
      | here => exact ⟨.refl _, Or.inr ⟨n.succ_pos, List.map_eq_nil_iff.mp hc⟩⟩
      | child ht hleaf =>
        subst hc
        obtain ⟨x, hx, rfl⟩ := List.mem_map.mp ht
        obtain ⟨hw, hd⟩ := ih.mp hleaf
        exact ⟨Walk.head hx hw, by simpa using hd⟩
    · intro h
      obtain ⟨hw, hd⟩ := h
      cases d with
      | zero =>
        obtain rfl := Walk.zero_iff.mp hw
        obtain ⟨-, hnil⟩ := hd.resolve_left (Nat.succ_ne_zero n).symm
        rw [hnil]
        exact .here _
      | succ d =>
        obtain ⟨x, hx, hxb⟩ := Walk.succ_iff_head.mp hw
        exact .child (List.mem_map_of_mem hx) (ih.mpr ⟨hxb, by simpa using hd⟩)

/-- The list of the leaves has the labels of the leaves. -/
theorem mem_leaves_unfold_iff :
    b ∈ leaves (unfold successors n a) ↔ ∃ d, Leaf (unfold successors n a) d b := by
  simp only [leaf_unfold_iff]
  induction n generalizing a with
  | zero =>
    rw [leaves_unfold_zero, List.mem_singleton]
    constructor
    · rintro rfl
      exact ⟨0, .refl b, Or.inl rfl⟩
    · intro h
      obtain ⟨d, hw, rfl | ⟨hlt, -⟩⟩ := h
      · exact (Walk.zero_iff.mp hw).symm
      · exact absurd hlt (Nat.not_lt_zero d)
  | succ n ih =>
    by_cases hnil : successors a = []
    · rw [leaves_unfold_nil hnil, List.mem_singleton]
      constructor
      · rintro rfl
        exact ⟨0, .refl b, Or.inr ⟨n.succ_pos, hnil⟩⟩
      · intro h
        obtain ⟨d, hw, -⟩ := h
        cases d with
        | zero => exact (Walk.zero_iff.mp hw).symm
        | succ d =>
          obtain ⟨x, hx, -⟩ := Walk.succ_iff_head.mp hw
          exact absurd (hnil ▸ hx) List.not_mem_nil
    · rw [leaves_unfold_succ hnil, List.mem_flatMap]
      constructor
      · intro h
        obtain ⟨x, hx, hb⟩ := h
        obtain ⟨d, hw, hd⟩ := ih.mp hb
        exact ⟨d + 1, Walk.head hx hw, by simpa using hd⟩
      · intro h
        obtain ⟨d, hw, hd⟩ := h
        cases d with
        | zero =>
          obtain rfl := Walk.zero_iff.mp hw
          exact absurd (hd.resolve_left (Nat.succ_ne_zero n).symm).2 hnil
        | succ d =>
          obtain ⟨x, hx, hxb⟩ := Walk.succ_iff_head.mp hw
          exact ⟨x, hx, ih.mpr ⟨d, hxb, by simpa using hd⟩⟩

/-! ### How many leaves -/

/-- With up to `k` successors at each vertex there are up to `k ^ n` leaves. -/
theorem length_leaves_unfold_le {k : Nat} (hk : 1 ≤ k) (h : ∀ x, (successors x).length ≤ k) :
    (leaves (unfold successors n a)).length ≤ k ^ n := by
  induction n generalizing a with
  | zero => rw [leaves_unfold_zero, List.length_singleton, pow_zero]
  | succ n ih =>
    by_cases hnil : successors a = []
    · rw [leaves_unfold_nil hnil, List.length_singleton]
      exact Nat.one_le_pow _ _ hk
    · have hsum : ((successors a).map fun b => (leaves (unfold successors n b)).length).sum ≤
          (successors a).length * k ^ n := by
        refine (List.sum_le_card_nsmul _ (k ^ n) fun m hm => ?_).trans_eq (by simp)
        obtain ⟨b, -, rfl⟩ := List.mem_map.mp hm
        exact ih
      calc (leaves (unfold successors (n + 1) a)).length
          = ((successors a).map fun b => (leaves (unfold successors n b)).length).sum := by
            rw [leaves_unfold_succ hnil, List.length_flatMap]
        _ ≤ (successors a).length * k ^ n := hsum
        _ ≤ k * k ^ n := Nat.mul_le_mul_right _ (h a)
        _ = k ^ (n + 1) := (pow_succ' k n).symm

/-- With just `k` successors at each of the vertices that are come to, there are `k ^ n`. -/
theorem length_leaves_unfold_eq {k : Nat} {p : α → Prop} (hk : 1 ≤ k)
    (h : ∀ x, p x → (successors x).length = k ∧ ∀ y ∈ successors x, p y) (ha : p a) :
    (leaves (unfold successors n a)).length = k ^ n := by
  induction n generalizing a with
  | zero => rw [leaves_unfold_zero, List.length_singleton, pow_zero]
  | succ n ih =>
    obtain ⟨hlen, hmem⟩ := h a ha
    have hnil : successors a ≠ [] := List.ne_nil_of_length_pos (by omega)
    have hconst : ((successors a).map fun b => (leaves (unfold successors n b)).length) =
        List.replicate k (k ^ n) := by
      rw [← hlen]
      exact List.map_eq_replicate_iff.mpr fun b hb => hlen ▸ ih (hmem b hb)
    rw [leaves_unfold_succ hnil, List.length_flatMap, hconst, List.sum_replicate_nat,
      pow_succ']

end Unfold

end RoseTree

/-! ## Replacing the pending elements of a list -/

section Replace

variable {α : Type u} [DecidableEq α] {replace : List α → α → List α} {parts : α → List α}

/-- **Balance.** When each round takes its element out of the list and puts the parts of it
in, the loop over pending elements of the list exchanges all of them. -/
theorem foldl_replace {pending : List α}
    (h : ∀ a ∈ pending, ∀ result : List α, a ∈ result →
      ((replace result a : List α) : Multiset α) =
        (result : Multiset α).erase a + (parts a : Multiset α))
    {base : Multiset α} {result : List α} (hresult : (result : Multiset α) = base + pending) :
    ((pending.foldl replace result : List α) : Multiset α) =
      base + (pending.flatMap parts : Multiset α) := by
  induction pending generalizing base result with
  | nil => exact hresult
  | cons a l ih =>
    have hbase : (result : Multiset α) = a ::ₘ (base + l) := by
      rw [hresult, ← Multiset.cons_coe, Multiset.add_cons]
    have hmem : a ∈ result := by
      rw [← Multiset.mem_coe, hbase]
      exact Multiset.mem_cons_self ..
    -- the parts of `a` count to the base from now on
    have hstep : ((replace result a : List α) : Multiset α) =
        base + (parts a : Multiset α) + l := by
      rw [h a (List.mem_cons_self ..) result hmem, hbase, Multiset.erase_cons_head,
        add_right_comm]
    rw [List.foldl_cons, ih (fun b hb => h b (List.mem_cons_of_mem _ hb)) hstep,
      List.flatMap_cons, ← Multiset.coe_add, add_assoc]

end Replace
