import Mathlib.Tactic.Ring
import Mathlib.Data.Rat.Floor

/-!
# The Java library functions the programs use

Failing operations return in `Except Fault`: a dereference of the null that
`Map.get` gives for a missing key, an array access out of range, and a loop
that never ends. A program that returns `.ok` has none of these in its run.

An `int` is an `Int` between the bounds; where an operation could leave them, it is one
that wraps around (`intAdd`).

Strings are sequences of Unicode scalar values, which is what a decoded input
gives; `compareTo` compares their UTF-16 code units, as Java does.
-/

namespace Pipair

/-- How a run can fail to finish normally. -/
inductive Fault
  | nullPointer
  | indexOutOfBounds
  | diverged
deriving DecidableEq, Repr

/-- Use of the result of `Map.get`. -/
def deref {α : Type*} : Option α → Except Fault α
  | some a => .ok a
  | none => .error .nullPointer

@[simp] theorem deref_some {α : Type*} (a : α) : deref (some a) = .ok a := rfl

/-- `array[i]` -/
def element {α : Type*} (l : List α) (i : Nat) : Except Fault α :=
  match l[i]? with
  | some a => .ok a
  | none => .error .indexOutOfBounds

@[simp] theorem element_zero {α : Type*} (a : α) (l : List α) : element (a :: l) 0 = .ok a := rfl

@[simp] theorem element_one {α : Type*} (a b : α) (l : List α) :
    element (a :: b :: l) 1 = .ok b := rfl

@[simp] theorem ok_bind {α β : Type} (a : α) (f : α → Except Fault β) :
    (Except.ok a >>= f) = f a := rfl

/-! ## Integers -/

/-- `Integer.MAX_VALUE` -/
def maxInt : Int := 2147483647

/-- `x + y`, in 32 bits. -/
def intAdd (x y : Int) : Int := (x + y).bmod (2 ^ 32)

theorem intAdd_eq {x y : Int} (hlow : 0 ≤ x + y) (hhigh : x + y ≤ maxInt) :
    intAdd x y = x + y := by
  unfold maxInt at hhigh
  exact Int.bmod_eq_of_le (by omega) (by omega)

theorem intAdd_le_maxInt (x y : Int) : intAdd x y ≤ maxInt := by
  have h : (x + y).bmod (2 ^ 32) < ((2 ^ 32 : Nat) + 1 : Int) / 2 := Int.bmod_lt (by decide)
  unfold intAdd maxInt
  omega

/-! ## String comparison -/

/-- The UTF-16 code units of a character. -/
def codeUnits (c : Char) : List Nat :=
  if c.toNat < 0x10000 then [c.toNat]
  else [0xD800 + (c.toNat - 0x10000) / 0x400, 0xDC00 + (c.toNat - 0x10000) % 0x400]

/-- The code units of a string, the elements `charAt` and `length` count. -/
def utf16 (s : String) : List Nat := s.toList.flatMap codeUnits

/-- The difference at the first index where the units differ, or else the
difference of the lengths. -/
def compareUnits : List Nat → List Nat → Int
  | [], bs => -(bs.length : Int)
  | a :: as, [] => ((a :: as).length : Int)
  | a :: as, b :: bs => if a = b then compareUnits as bs else (a : Int) - b

/-- `String.compareTo` -/
def compareTo (x y : String) : Int := compareUnits (utf16 x) (utf16 y)

/-- A character is not a surrogate, so its first code unit tells how many
follow. -/
theorem toNat_valid (c : Char) :
    c.toNat < 0xD800 ∨ (0xDFFF < c.toNat ∧ c.toNat < 0x110000) := c.valid

theorem codeUnits_append_inj {c d : Char} {l m : List Nat}
    (h : codeUnits c ++ l = codeUnits d ++ m) : c = d ∧ l = m := by
  have hc := toNat_valid c
  have hd := toNat_valid d
  have hinj : c.toNat = d.toNat → c = d := Char.toNat_inj.mp
  unfold codeUnits at h
  -- the first unit of a pair is a high surrogate, which no character of one unit is
  split at h <;> split at h <;>
    simp only [List.cons_append, List.nil_append, List.cons.injEq] at h
  · exact ⟨hinj h.1, h.2⟩
  · omega
  · omega
  · exact ⟨hinj (by omega), h.2.2⟩

theorem flatMap_codeUnits_injective : ∀ l m : List Char,
    l.flatMap codeUnits = m.flatMap codeUnits → l = m := by
  intro l
  induction l with
  | nil =>
    intro m h
    cases m with
    | nil => rfl
    | cons d m =>
      rw [List.flatMap_nil, List.flatMap_cons, codeUnits] at h
      split at h <;> simp at h
  | cons c l ih =>
    intro m h
    cases m with
    | nil =>
      rw [List.flatMap_nil, List.flatMap_cons, codeUnits] at h
      split at h <;> simp at h
    | cons d m =>
      rw [List.flatMap_cons, List.flatMap_cons] at h
      obtain ⟨rfl, htail⟩ := codeUnits_append_inj h
      rw [ih m htail]

theorem utf16_injective {x y : String} (h : utf16 x = utf16 y) : x = y :=
  String.toList_injective (flatMap_codeUnits_injective _ _ h)

theorem compareUnits_swap (as bs : List Nat) : compareUnits bs as = -compareUnits as bs := by
  induction as generalizing bs with
  | nil => cases bs <;> simp [compareUnits]
  | cons a as ih =>
    cases bs with
    | nil => simp [compareUnits]
    | cons b bs =>
      rw [compareUnits, compareUnits]
      by_cases hab : a = b
      · rw [if_pos hab, if_pos hab.symm, ih]
      · rw [if_neg hab, if_neg (Ne.symm hab)]
        ring

theorem compareUnits_eq_zero {as bs : List Nat} (h : compareUnits as bs = 0) : as = bs := by
  induction as generalizing bs with
  | nil =>
    cases bs with
    | nil => rfl
    | cons b bs =>
      simp only [compareUnits, List.length_cons] at h
      omega
  | cons a as ih =>
    cases bs with
    | nil =>
      simp only [compareUnits, List.length_cons] at h
      omega
    | cons b bs =>
      rw [compareUnits] at h
      split at h
      · next hab => rw [hab, ih h]
      · next hab => omega

/-- Units are compared as words in a dictionary. -/
theorem compareUnits_neg_iff {as bs : List Nat} : compareUnits as bs < 0 ↔ as < bs := by
  induction as generalizing bs with
  | nil =>
    cases bs with
    | nil => simp [compareUnits]
    | cons b bs =>
      simp only [compareUnits, List.length_cons, List.nil_lt_cons, iff_true]
      omega
  | cons a as ih =>
    cases bs with
    | nil =>
      simp only [compareUnits, List.length_cons, List.not_lt_nil, iff_false]
      omega
    | cons b bs =>
      rw [compareUnits, List.cons_lt_cons_iff]
      by_cases hab : a = b
      · rw [if_pos hab, ih]
        simp [hab]
      · rw [if_neg hab]
        simp only [hab, false_and, or_false]
        omega

theorem compareTo_swap (x y : String) : compareTo y x = -compareTo x y := compareUnits_swap ..

theorem compareTo_ne_zero {x y : String} (h : x ≠ y) : compareTo x y ≠ 0 :=
  fun h0 => h (utf16_injective (compareUnits_eq_zero h0))

/-- The two names of a pair, the smaller one first. -/
def lexicographic (x y : String) : String × String :=
  if compareTo x y < 0 then (x, y) else (y, x)

theorem lexicographic_cases (x y : String) :
    lexicographic x y = (x, y) ∨ lexicographic x y = (y, x) := by
  unfold lexicographic
  split
  · exact Or.inl rfl
  · exact Or.inr rfl

/-- The first name of a pair comes before the second in the order of the code units. -/
theorem lexicographic_lt {x y : String} (h : x ≠ y) :
    utf16 (lexicographic x y).1 < utf16 (lexicographic x y).2 := by
  have hne := compareTo_ne_zero h
  unfold lexicographic
  split
  · next hlt => exact compareUnits_neg_iff.mp hlt
  · next hlt =>
    have hswap := compareTo_swap x y
    exact compareUnits_neg_iff.mp (show compareTo y x < 0 by omega)

/-- The order in which the names of a pair are found does not show. -/
theorem lexicographic_comm (x y : String) : lexicographic x y = lexicographic y x := by
  by_cases hxy : x = y
  · rw [hxy]
  · have hne := compareTo_ne_zero hxy
    unfold lexicographic
    rw [compareTo_swap x y]
    by_cases hlt : compareTo x y < 0
    · rw [if_pos hlt, if_neg (by omega)]
    · rw [if_neg hlt, if_pos (by omega)]

/-- A pair is determined by its rendering order and one of its names. -/
theorem lexicographic_inj {a b b' : String} (h : lexicographic a b = lexicographic a b') :
    b = b' := by
  unfold lexicographic at h
  split at h <;> split at h <;> simp only [Prod.mk.injEq] at h
  · exact h.2
  · rw [h.2, ← h.1]
  · rw [h.1, ← h.2]
  · exact h.1

/-- `String.format("%.2f", 100 * x) + "%"`, rounding half up. -/
def percent (x : ℚ) : String :=
  let hundredths := (x * 10000 + 1 / 2).floor.toNat
  let cents := hundredths % 100
  toString (hundredths / 100) ++ "." ++ (if cents < 10 then "0" else "") ++ toString cents ++ "%"

end Pipair
