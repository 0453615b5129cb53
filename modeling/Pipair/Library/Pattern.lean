import Mathlib.Data.List.Basic

/-!
# Greedy patterns

The fragment of regular expressions made of literal characters and of greedy
wildcards `.*`, some of them capturing groups. `Pattern.captures` matches a whole
text the way a backtracking engine does: a wildcard takes as much as it can and
gives back until the rest of the pattern matches.

So a wildcard stops in front of the shortest rest of the text that the rest of the
pattern matches (`captures_anything`, `captures_capture`). For a text between two
delimiters this makes the last two delimiters count (`captures_between`).
-/

/-- One item of a pattern: a literal character, `.*`, or `(.*)`. -/
inductive Pattern.Item
  | char (c : Char)
  | anything
  | capture
deriving DecidableEq

namespace Pattern

/-- The splits of a text, the one with the longest first part first. -/
def splits : List Char → List (List Char × List Char)
  | [] => [([], [])]
  | c :: s => (splits s).map (fun w => (c :: w.1, w.2)) ++ [([], c :: s)]

/-- The texts captured by the groups of the first match, when there is one. -/
def captures : List Item → List Char → Option (List (List Char))
  | [], [] => some []
  | [], _ :: _ => none
  | .char _ :: _, [] => none
  | .char c :: p, d :: s => if d = c then captures p s else none
  | .anything :: p, s => (splits s).findSome? fun w => captures p w.2
  | .capture :: p, s => (splits s).findSome? fun w => (captures p w.2).map (w.1 :: ·)

/-- The literal characters of a text. -/
def literal (s : String) : List Item := s.toList.map .char

/-! ## Literals -/

theorem captures_literal (l s : List Char) (p : List Item) :
    captures (l.map .char ++ p) (l ++ s) = captures p s := by
  induction l with
  | nil => rfl
  | cons c l ih =>
    rw [List.map_cons, List.cons_append, List.cons_append, captures, if_pos rfl, ih]

/-- A text that begins with literals begins with them. -/
theorem exists_of_captures_literal {l s : List Char} {p : List Item} {gs : List (List Char)}
    (h : captures (l.map .char ++ p) s = some gs) :
    ∃ s', s = l ++ s' ∧ captures p s' = some gs := by
  induction l generalizing s with
  | nil => exact ⟨s, rfl, h⟩
  | cons c l ih =>
    cases s with
    | nil => exact absurd h (by simp [captures])
    | cons d s =>
      rw [List.map_cons, List.cons_append, captures] at h
      split at h
      · next hd =>
        obtain ⟨s', rfl, hs'⟩ := ih h
        exact ⟨s', by rw [hd, List.cons_append], hs'⟩
      · exact absurd h (by simp)

/-! ## Wildcards -/

theorem append_of_mem_splits {s : List Char} {w : List Char × List Char} (h : w ∈ splits s) :
    w.1 ++ w.2 = s := by
  induction s generalizing w with
  | nil =>
    obtain rfl := List.mem_singleton.mp h
    rfl
  | cons c s ih =>
    rw [splits, List.mem_append, List.mem_map, List.mem_singleton] at h
    rcases h with ⟨w, hw, rfl⟩ | rfl
    · exact congrArg (c :: ·) (ih hw)
    · rfl

/-- The splits before `(u, v)` leave a proper rest of `v`. -/
theorem splits_append (u v : List Char) :
    ∃ before after, splits (u ++ v) = before ++ (u, v) :: after ∧
      ∀ w ∈ before, w.2 <:+ v ∧ w.2 ≠ v := by
  induction u with
  | nil =>
    cases v with
    | nil => exact ⟨[], [], rfl, by simp⟩
    | cons c v =>
      refine ⟨(splits v).map fun w => (c :: w.1, w.2), [], rfl, fun w hw => ?_⟩
      obtain ⟨w, hsplit, rfl⟩ := List.mem_map.mp hw
      have hsuffix : w.2 <:+ v := ⟨w.1, append_of_mem_splits hsplit⟩
      refine ⟨hsuffix.trans (List.suffix_cons c v), fun heq => ?_⟩
      have hlen := hsuffix.length_le
      rw [heq, List.length_cons] at hlen
      omega
  | cons c u ih =>
    obtain ⟨before, after, hsplits, hbefore⟩ := ih
    refine ⟨before.map fun w => (c :: w.1, w.2),
      after.map (fun w => (c :: w.1, w.2)) ++ [([], c :: (u ++ v))], ?_, fun w hw => ?_⟩
    · rw [List.cons_append, splits, hsplits, List.map_append, List.map_cons, List.append_assoc,
        List.cons_append]
    · obtain ⟨w, hsplit, rfl⟩ := List.mem_map.mp hw
      exact hbefore w hsplit

/-- The first split whose rest satisfies `f`: the one with the shortest such rest. -/
theorem findSome_splits {β : Type*} {f : List Char → Option β} {g : List Char → β → β}
    {u v : List Char} {b : β} (hv : f v = some b)
    (hrest : ∀ v', v' <:+ v → v' ≠ v → f v' = none) :
    (splits (u ++ v)).findSome? (fun w => (f w.2).map (g w.1)) = some (g u b) := by
  obtain ⟨before, after, hsplits, hbefore⟩ := splits_append u v
  rw [List.findSome?_eq_some_iff]
  refine ⟨before, (u, v), after, hsplits, by rw [hv, Option.map_some], fun w hw => ?_⟩
  obtain ⟨hsuffix, hne⟩ := hbefore w hw
  rw [hrest _ hsuffix hne, Option.map_none]

variable {p : List Item} {s u v : List Char} {gs : List (List Char)}

/-- **A wildcard** leaves the shortest rest that matches. -/
theorem captures_anything (hv : captures p v = some gs)
    (hrest : ∀ v', v' <:+ v → v' ≠ v → captures p v' = none) :
    captures (.anything :: p) (u ++ v) = some gs := by
  rw [captures]
  simpa using findSome_splits (g := fun _ gs => gs) hv hrest

/-- A capturing wildcard captures the text before that rest. -/
theorem captures_capture (hv : captures p v = some gs)
    (hrest : ∀ v', v' <:+ v → v' ≠ v → captures p v' = none) :
    captures (.capture :: p) (u ++ v) = some (u :: gs) := by
  rw [captures]
  exact findSome_splits (g := fun u gs => u :: gs) hv hrest

/-- A wildcard at the end takes everything. -/
theorem captures_anything_end (s : List Char) : captures [.anything] s = some [] := by
  rw [← List.append_nil s]
  refine captures_anything rfl fun v' hv' hne => ?_
  exact absurd (List.suffix_nil.mp hv') hne

/-- What a wildcard matches ends in something that the rest of the pattern matches. -/
theorem exists_of_captures_anything (h : captures (.anything :: p) s = some gs) :
    ∃ v, v <:+ s ∧ captures p v = some gs := by
  rw [captures] at h
  obtain ⟨w, hw, hgs⟩ := List.exists_of_findSome?_eq_some h
  exact ⟨w.2, ⟨w.1, append_of_mem_splits hw⟩, hgs⟩

theorem exists_of_captures_capture (h : captures (.capture :: p) s = some gs) :
    ∃ v gs', v <:+ s ∧ captures p v = some gs' := by
  rw [captures] at h
  obtain ⟨w, hw, hgs⟩ := List.exists_of_findSome?_eq_some h
  obtain ⟨gs', hgs', -⟩ := Option.map_eq_some_iff.mp hgs
  exact ⟨w.2, gs', ⟨w.1, append_of_mem_splits hw⟩, hgs'⟩

/-! ## Between two delimiters -/

/-- `.*q(.*)q.*` -/
def between (q : Char) : List Item := [.anything, .char q, .capture, .char q, .anything]

/-- A text that begins with a delimiter and matches from there has another one. -/
theorem two_le_count_of_captures {q : Char}
    (h : captures [.char q, .capture, .char q, .anything] s = some gs) : 2 ≤ s.count q := by
  have hsome : captures ([q].map Item.char ++ [.capture, .char q, .anything]) s = some gs := h
  obtain ⟨s', rfl, hs'⟩ := exists_of_captures_literal hsome
  obtain ⟨v, gs', hv, hgs'⟩ := exists_of_captures_capture hs'
  have hsome' : captures ([q].map Item.char ++ [.anything]) v = some gs' := hgs'
  obtain ⟨w, rfl, -⟩ := exists_of_captures_literal hsome'
  have hmem : q ∈ s' := hv.subset (by simp)
  rw [List.singleton_append, List.count_cons_self]
  have := List.count_pos_iff.mpr hmem
  omega

/-- **With less than two delimiters** there is no match. -/
theorem captures_between_eq_none {q : Char} (h : s.count q ≤ 1) :
    captures (between q) s = none := by
  cases hs : captures (between q) s with
  | none => rfl
  | some gs =>
    obtain ⟨v, hv, hgs⟩ := exists_of_captures_anything hs
    have h2 := two_le_count_of_captures hgs
    have hle := hv.sublist.count_le q
    omega

/-- **The last two delimiters** are those of the group. -/
theorem captures_between {q : Char} (u : List Char) {v w : List Char} (hv : q ∉ v)
    (hw : q ∉ w) : captures (between q) (u ++ q :: (v ++ q :: w)) = some [v] := by
  -- the group ends at the last delimiter, as no other one follows
  have hgroup : captures [.capture, .char q, .anything] (v ++ q :: w) = some [v] := by
    refine captures_capture ?_ fun v' hv' hne => ?_
    · rw [captures, if_pos rfl, captures_anything_end]
    · rcases List.suffix_cons_iff.mp hv' with heq | hsuffix
      · exact absurd heq hne
      · cases v' with
        | nil => rfl
        | cons d v' =>
          have hd : d ≠ q := fun heq => hw (heq ▸ hsuffix.subset (List.mem_cons_self ..))
          rw [captures, if_neg hd]
  refine captures_anything ?_ fun v' hv' hne => ?_
  · rw [captures, if_pos rfl, hgroup]
  · -- it begins at the last but one, as behind that there is only one
    rcases List.suffix_cons_iff.mp hv' with heq | hsuffix
    · exact absurd heq hne
    · cases h : captures [.char q, .capture, .char q, .anything] v' with
      | none => rfl
      | some gs =>
        have h2 := two_le_count_of_captures h
        have hle := hsuffix.sublist.count_le q
        rw [List.count_append, List.count_cons_self, List.count_eq_zero.mpr hv,
          List.count_eq_zero.mpr hw] at hle
        omega

/-- A text with a delimiter ends in its last one and a text without any. -/
theorem exists_last {q : Char} (h : q ∈ s) : ∃ u w, s = u ++ q :: w ∧ q ∉ w := by
  induction s with
  | nil => exact absurd h List.not_mem_nil
  | cons c s ih =>
    by_cases hs : q ∈ s
    · obtain ⟨u, w, rfl, hw⟩ := ih hs
      exact ⟨c :: u, w, rfl, hw⟩
    · obtain rfl := (List.mem_cons.mp h).resolve_right hs
      exact ⟨[], s, rfl, hs⟩

/-- **What is captured** is the text between the last two delimiters, so there is none in it. -/
theorem exists_of_captures_between {q : Char} (h : captures (between q) s = some gs) :
    ∃ u v w, s = u ++ q :: (v ++ q :: w) ∧ q ∉ v ∧ gs = [v] := by
  have hcount : 2 ≤ s.count q := by
    by_contra hlt
    rw [captures_between_eq_none (by omega)] at h
    cases h
  obtain ⟨u', w, rfl, hw⟩ := exists_last (List.count_pos_iff.mp (by omega : 0 < s.count q))
  have hmem : q ∈ u' := by
    rw [List.count_append, List.count_cons_self, List.count_eq_zero.mpr hw] at hcount
    exact List.count_pos_iff.mp (by omega)
  obtain ⟨u, v, rfl, hv⟩ := exists_last hmem
  rw [List.append_assoc, List.cons_append] at h ⊢
  rw [captures_between u hv hw, Option.some.injEq] at h
  exact ⟨u, v, w, rfl, hv, h.symm⟩

end Pattern
