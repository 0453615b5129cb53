import Mathlib.Data.List.Nodup

/-!
# Reporting one of two mirrored items

A program goes through items one by one. Some items are *paired*: the item and
its mirror image are two forms of one report. The program notes the key of every
paired item it reports and skips an item whose mirror image is noted.

`mem_once_iff` says which items are reported: a paired item exactly when it comes
before its mirror image. So of two mirrored items one is reported and the other
is not (`once_mirror_iff`), in whatever order the items come.

The items usually come out of nested loops. `forEachWith` is a loop that passes a
state on, and `forEachWith_collect` unfolds nested ones into one list of items.
-/

variable {ε σ α β ι κ : Type*}

/-! ## Loops with a state -/

/-- A loop over a list whose body passes on a state, may fail and otherwise
produces output. -/
def forEachWith (body : α → σ → Except ε (σ × List β)) : List α → σ → Except ε (σ × List β)
  | [], st => .ok (st, [])
  | a :: l, st =>
    match body a st with
    | .error e => .error e
    | .ok (st, out) =>
      match forEachWith body l st with
      | .error e => .error e
      | .ok (st, rest) => .ok (st, out ++ rest)

/-- The state and the output after a list of items. -/
def collect (step : ι → σ → σ × List β) : List ι → σ → σ × List β
  | [], st => (st, [])
  | t :: l, st =>
    let r := collect step l (step t st).1
    (r.1, (step t st).2 ++ r.2)

theorem collect_append (step : ι → σ → σ × List β) (l m : List ι) (st : σ) :
    collect step (l ++ m) st =
      ((collect step m (collect step l st).1).1,
        (collect step l st).2 ++ (collect step m (collect step l st).1).2) := by
  induction l generalizing st with
  | nil => simp [collect]
  | cons t l ih => simp [collect, ih]

/-- **Loop rule.** A loop whose rounds go through items goes through the items of
its rounds. -/
theorem forEachWith_collect {body : α → σ → Except ε (σ × List β)} {step : ι → σ → σ × List β}
    {items : α → List ι} {l : List α}
    (h : ∀ a ∈ l, ∀ st, body a st = .ok (collect step (items a) st)) (st : σ) :
    forEachWith body l st = .ok (collect step (l.flatMap items) st) := by
  induction l generalizing st with
  | nil => rfl
  | cons a l ih =>
    rw [forEachWith, h a (List.mem_cons_self ..)]
    dsimp only
    rw [ih fun b hb => h b (List.mem_cons_of_mem _ hb), List.flatMap_cons, collect_append]

/-- A loop whose rounds pass on the states of another loop and produce its output, changed item
by item. -/
theorem forEachWith_map {γ : Type*} {body : α → σ → Except ε (σ × List β)}
    {body' : α → σ → Except ε (σ × List γ)} (f : β → γ) {l : List α}
    (h : ∀ a ∈ l, ∀ st, body' a st = (body a st).map fun r => (r.1, r.2.map f)) (st : σ) :
    forEachWith body' l st = (forEachWith body l st).map fun r => (r.1, r.2.map f) := by
  induction l generalizing st with
  | nil => rfl
  | cons a l ih =>
    rw [forEachWith, forEachWith, h a (List.mem_cons_self ..)]
    cases body a st with
    | error e => rfl
    | ok r =>
      simp only [Except.map, ih fun b hb => h b (List.mem_cons_of_mem _ hb)]
      cases forEachWith body l r.1 with
      | error e => rfl
      | ok r' => simp

/-- A list put together from disjoint duplicate-free ones has no duplicates. -/
theorem nodup_flatMap_of_disjoint {l : List α} {f : α → List ι} (hl : l.Nodup)
    (hf : ∀ a ∈ l, (f a).Nodup)
    (hdisj : ∀ a ∈ l, ∀ b ∈ l, ∀ x, x ∈ f a → x ∈ f b → a = b) : (l.flatMap f).Nodup := by
  rw [List.nodup_flatMap]
  refine ⟨hf, hl.pairwise_of_forall_ne fun a ha b hb hab x hx hx' => ?_⟩
  exact hab (hdisj a ha b hb x hx hx')

/-! ## Once -/

section Once

variable [DecidableEq κ] (mirror : ι → ι) (key : ι → κ) (paired : ι → Prop)
  [DecidablePred paired]

/-- What is done with one item: the keys noted after it, and what it reports. -/
def reportOnce (line : ι → β) (t : ι) (visit : List κ) : List κ × List β :=
  if paired t then
    if key (mirror t) ∈ visit then (visit, []) else (visit ++ [key t], [line t])
  else (visit, [line t])

/-- The items reported. -/
def once : List ι → List κ → List ι
  | [], _ => []
  | t :: l, visit =>
    if paired t then
      if key (mirror t) ∈ visit then once l visit else t :: once l (visit ++ [key t])
    else t :: once l visit

theorem collect_reportOnce (line : ι → β) (l : List ι) (visit : List κ) :
    (collect (reportOnce mirror key paired line) l visit).2 =
      (once mirror key paired l visit).map line := by
  induction l generalizing visit with
  | nil => rfl
  | cons t l ih =>
    rw [collect, once, reportOnce]
    dsimp only
    split
    · split
      · rw [ih, List.nil_append]
      · rw [ih, List.map_cons, List.singleton_append]
    · rw [ih, List.map_cons, List.singleton_append]

theorem once_sublist (l : List ι) (visit : List κ) :
    (once mirror key paired l visit).Sublist l := by
  induction l generalizing visit with
  | nil => exact List.Sublist.refl []
  | cons t l ih =>
    rw [once]
    split
    · split
      · exact (ih visit).cons t
      · exact (ih _).cons_cons t
    · exact (ih visit).cons_cons t

variable {mirror key paired} {l : List ι} {visit : List κ} {t : ι}

theorem mem_once_head (ht : t ∉ l) :
    t ∈ once mirror key paired (t :: l) visit ↔ (paired t → key (mirror t) ∉ visit) := by
  have hrest : ∀ visit, t ∉ once mirror key paired l visit := fun visit h =>
    ht ((once_sublist ..).subset h)
  rw [once]
  split
  · next hp =>
    split
    · next hv => simp [hrest, hp, hv]
    · next hv => simp [hv]
  · next hp => simp [hp]

/-! ### Keys that are shared

Nothing is assumed here of the keys: different items may have the same one. -/

theorem mem_once_of_not_paired (ht : t ∈ l) (hp : ¬ paired t) :
    t ∈ once mirror key paired l visit := by
  induction l generalizing visit with
  | nil => exact absurd ht List.not_mem_nil
  | cons u l ih =>
    rw [once]
    rcases List.mem_cons.mp ht with rfl | ht
    · rw [if_neg hp]
      exact List.mem_cons_self ..
    · split
      · split
        · exact ih ht
        · exact List.mem_cons_of_mem _ (ih ht)
      · exact List.mem_cons_of_mem _ (ih ht)

/-- **What a skipped item gave way to**: a key noted at the start, or an item reported whose key
is that of its mirror image. -/
theorem mem_once_or (ht : t ∈ l) (hp : paired t) :
    t ∈ once mirror key paired l visit ∨ key (mirror t) ∈ visit ∨
      ∃ u ∈ once mirror key paired l visit, paired u ∧ key u = key (mirror t) := by
  induction l generalizing visit with
  | nil => exact absurd ht List.not_mem_nil
  | cons u l ih =>
    rw [once]
    rcases List.mem_cons.mp ht with rfl | ht
    · rw [if_pos hp]
      split
      · next hv => exact Or.inr (Or.inl hv)
      · exact Or.inl (List.mem_cons_self ..)
    · -- an item behind `u` finds the key of `u` besides, when `u` is reported
      have hcons : ∀ visit' : List κ, (∀ k ∈ visit', k ∈ visit ∨ (paired u ∧ k = key u)) →
          t ∈ u :: once mirror key paired l visit' ∨ key (mirror t) ∈ visit ∨
            ∃ w ∈ u :: once mirror key paired l visit', paired w ∧ key w = key (mirror t) := by
        intro visit' hvisit'
        have hor : t ∈ once mirror key paired l visit' ∨ key (mirror t) ∈ visit' ∨
            ∃ w ∈ once mirror key paired l visit', paired w ∧ key w = key (mirror t) := ih ht
        rcases hor with h | h | ⟨w, hw, hpw, hkey⟩
        · exact Or.inl (List.mem_cons_of_mem _ h)
        · rcases hvisit' _ h with h | ⟨hpu, h⟩
          · exact Or.inr (Or.inl h)
          · exact Or.inr (Or.inr ⟨u, List.mem_cons_self .., hpu, h.symm⟩)
        · exact Or.inr (Or.inr ⟨w, List.mem_cons_of_mem _ hw, hpw, hkey⟩)
      split
      · next hpu =>
        split
        · exact ih ht
        · refine hcons _ fun k hk => ?_
          rcases List.mem_append.mp hk with hk | hk
          · exact Or.inl hk
          · exact Or.inr ⟨hpu, List.mem_singleton.mp hk⟩
      · exact hcons _ fun k hk => Or.inl hk

/-- A paired item is reported only when the key of its mirror image is not noted at the
start. -/
theorem mirror_notMem_visit (h : t ∈ once mirror key paired l visit) (hp : paired t) :
    key (mirror t) ∉ visit := by
  induction l generalizing visit with
  | nil => exact absurd h List.not_mem_nil
  | cons u l ih =>
    rw [once] at h
    split at h
    · split at h
      · exact ih h
      · next hv =>
        rcases List.mem_cons.mp h with rfl | h
        · exact hv
        · exact fun hmem => ih h (List.mem_append_left _ hmem)
    · next hnp =>
      rcases List.mem_cons.mp h with rfl | h
      · exact absurd hp hnp
      · exact ih h

/-- No paired item is reported behind one whose key is that of its mirror image. -/
theorem pairwise_once :
    (once mirror key paired l visit).Pairwise fun u v =>
      paired u → paired v → key u ≠ key (mirror v) := by
  induction l generalizing visit with
  | nil => exact List.Pairwise.nil
  | cons u l ih =>
    rw [once]
    split
    · split
      · exact ih
      · refine List.pairwise_cons.mpr ⟨fun v hv _ hpv heq => ?_, ih⟩
        exact mirror_notMem_visit hv hpv (List.mem_append_right _ (heq ▸ List.mem_singleton_self _))
    · next hnp => exact List.pairwise_cons.mpr ⟨fun v _ hpu => absurd hpu hnp, ih⟩

/-- **Never both.** Of two mirrored items at most one is reported. -/
theorem mirror_notMem_once
    (hmirror : ∀ t, paired t → paired (mirror t) ∧ mirror (mirror t) = t ∧ mirror t ≠ t)
    (h : t ∈ once mirror key paired l visit) (hp : paired t) :
    mirror t ∉ once mirror key paired l visit := by
  intro hm
  obtain ⟨hpm, hmm, hne⟩ := hmirror t hp
  have hpairs : (once mirror key paired l visit).Pairwise fun u v =>
      paired u → paired v → key u ≠ key (mirror v) := pairwise_once
  -- whichever comes first, its key is noted when the other comes
  obtain ⟨pre, post, heq⟩ := List.append_of_mem h
  rw [heq, List.pairwise_append, List.pairwise_cons] at hpairs
  rw [heq, List.mem_append, List.mem_cons, or_iff_right hne] at hm
  rcases hm with hm | hm
  · exact hpairs.2.2 _ hm t (List.mem_cons_self ..) hpm hp rfl
  · exact hpairs.2.1.1 _ hm hp hpm (by rw [hmm])

variable [DecidableEq ι]

/-- **Which items are reported.** Those that are not paired, and a paired item
when its mirror image is neither noted at the start nor comes before it. -/
theorem mem_once_iff
    (hmirror : ∀ t, paired t → paired (mirror t) ∧ mirror (mirror t) = t ∧ mirror t ≠ t)
    (hkey : ∀ t u, paired t → paired u → key t = key u → t = u)
    (hl : l.Nodup) (hvisit : ∀ u ∈ l, paired u → key u ∉ visit) :
    t ∈ once mirror key paired l visit ↔
      t ∈ l ∧ (paired t → key (mirror t) ∉ visit ∧ l.idxOf t < l.idxOf (mirror t)) := by
  induction l generalizing visit with
  | nil => simp [once]
  | cons u l ih =>
    obtain ⟨hu, hl⟩ := List.nodup_cons.mp hl
    have hrest : ∀ w ∈ l, paired w → key w ∉ visit := fun w hw =>
      hvisit w (List.mem_cons_of_mem _ hw)
    -- an item other than `u` sees the positions behind `u`
    have hidx : ∀ w, w ≠ u → (u :: l).idxOf w = l.idxOf w + 1 := fun w hw =>
      List.idxOf_cons_ne l (Ne.symm hw)
    by_cases htu : t = u
    · subst htu
      have hpos : paired t → (t :: l).idxOf t < (t :: l).idxOf (mirror t) := fun hp => by
        rw [List.idxOf_cons_self, hidx _ (hmirror t hp).2.2]
        omega
      rw [mem_once_head hu]
      exact ⟨fun h => ⟨List.mem_cons_self .., fun hp => ⟨h hp, hpos hp⟩⟩,
        fun h hp => (h.2 hp).1⟩
    · have hiff : (t ∈ u :: l ∧ (paired t → key (mirror t) ∉ visit ∧
            (u :: l).idxOf t < (u :: l).idxOf (mirror t))) ↔
          t ∈ l ∧ (paired t → key (mirror t) ∉ visit ∧ mirror t ≠ u ∧
            l.idxOf t < l.idxOf (mirror t)) := by
        rw [List.mem_cons, or_iff_right htu, hidx t htu]
        by_cases hm : mirror t = u
        · simp [hm]
        · simp [hm, hidx _ hm]
      rw [hiff, once]
      by_cases hp : paired u
      · rw [if_pos hp]
        split
        · next hv =>
          -- `t` is not the mirror image of `u`, which was reported before
          rw [ih hl hrest]
          refine and_congr_right fun ht => imp_congr_right fun hpt => and_congr_right fun _ => ?_
          have hne : mirror t ≠ u := by
            rintro rfl
            rw [(hmirror t hpt).2.1] at hv
            exact hrest t ht hpt hv
          simp [hne]
        · next hv =>
          have hvisit' : ∀ w ∈ l, paired w → key w ∉ visit ++ [key u] := by
            intro w hw hpw hmem
            rcases List.mem_append.mp hmem with hmem | hmem
            · exact hrest w hw hpw hmem
            · exact hu (hkey w u hpw hp (List.mem_singleton.mp hmem) ▸ hw)
          rw [List.mem_cons, or_iff_right htu, ih hl hvisit']
          refine and_congr_right fun _ => imp_congr_right fun hpt => ?_
          have hnoted : key (mirror t) = key u ↔ mirror t = u :=
            ⟨hkey _ _ (hmirror t hpt).1 hp, fun h => h ▸ rfl⟩
          rw [List.mem_append, List.mem_singleton, hnoted, not_or, and_assoc]
      · rw [if_neg hp, List.mem_cons, or_iff_right htu, ih hl hrest]
        refine and_congr_right fun _ => imp_congr_right fun hpt => and_congr_right fun _ => ?_
        have hne : mirror t ≠ u := fun h => hp (h ▸ (hmirror t hpt).1)
        simp [hne]

/-- **Of two mirrored items one is reported.** -/
theorem once_mirror_iff
    (hmirror : ∀ t, paired t → paired (mirror t) ∧ mirror (mirror t) = t ∧ mirror t ≠ t)
    (hkey : ∀ t u, paired t → paired u → key t = key u → t = u)
    (hl : l.Nodup) (ht : t ∈ l) (hp : paired t) (hm : mirror t ∈ l) :
    t ∈ once mirror key paired l [] ↔ mirror t ∉ once mirror key paired l [] := by
  obtain ⟨hpm, hmm, hne⟩ := hmirror t hp
  -- one of the two comes first
  have hidx : l.idxOf t ≠ l.idxOf (mirror t) := fun h => hne ((List.idxOf_inj ht).mp h).symm
  rw [mem_once_iff hmirror hkey hl (by simp), mem_once_iff hmirror hkey hl (by simp), hmm]
  simp only [ht, hm, hp, hpm, true_and, List.not_mem_nil, not_false_eq_true, forall_const]
  omega

end Once
