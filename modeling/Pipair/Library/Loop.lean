import Mathlib.Logic.Relation
import Mathlib.Order.Basic

/-!
# Loops

A round of a loop either goes on with a new state or leaves the loop with a
result. `iterate` runs a bounded number of rounds; `Reaches` relates the states
that the rounds pass through, without a bound.

The rules: more rounds never change a result (`iterate_mono`), an invariant of
one round holds in every state reached (`Reaches.invariant`), and a measure that
every round lowers bounds the number of rounds (`iterate_of_measure`).

A loop over a list whose rounds may fail is `List.foldlM`; the last section has what is
known of it from its rounds. A computation that succeeds has steps that do
(`exists_of_bind_ok`).
-/

universe u v

namespace Loop

variable {σ : Type u} {ρ : Type v}

/-- At most `n` rounds from `s`; `none` when they do not leave the loop. -/
def iterate (step : σ → σ ⊕ ρ) : Nat → σ → Option ρ
  | 0, _ => none
  | n + 1, s =>
    match step s with
    | .inl s' => iterate step n s'
    | .inr r => some r

theorem iterate_inl {step : σ → σ ⊕ ρ} {s s' : σ} (h : step s = .inl s') (n : Nat) :
    iterate step (n + 1) s = iterate step n s' := by
  rw [iterate, h]

theorem iterate_inr {step : σ → σ ⊕ ρ} {s : σ} {r : ρ} (h : step s = .inr r) (n : Nat) :
    iterate step (n + 1) s = some r := by
  rw [iterate, h]

/-- More rounds do not change a result. -/
theorem iterate_mono {step : σ → σ ⊕ ρ} {n m : Nat} (hnm : n ≤ m) {s : σ} {r : ρ}
    (h : iterate step n s = some r) : iterate step m s = some r := by
  induction n generalizing m s with
  | zero => exact absurd h (by simp [iterate])
  | succ n ih =>
    -- both runs make the first round
    obtain ⟨m, rfl⟩ : ∃ k, m = k + 1 := ⟨m - 1, by omega⟩
    cases hs : step s with
    | inl s' =>
      rw [iterate_inl hs] at h ⊢
      exact ih (by omega) h
    | inr r' => rwa [iterate_inr hs] at h ⊢

/-- A loop has at most one result. -/
theorem iterate_unique {step : σ → σ ⊕ ρ} {n m : Nat} {s : σ} {r r' : ρ}
    (h : iterate step n s = some r) (h' : iterate step m s = some r') : r = r' := by
  rcases Nat.le_total n m with hle | hle
  · exact Option.some.inj ((iterate_mono hle h).symm.trans h')
  · exact Option.some.inj (h.symm.trans (iterate_mono hle h'))

/-! ## The states of a run -/

/-- `s'` is a state of the run from `s`. -/
def Reaches (step : σ → σ ⊕ ρ) : σ → σ → Prop :=
  Relation.ReflTransGen fun s s' => step s = .inl s'

theorem Reaches.refl {step : σ → σ ⊕ ρ} (s : σ) : Reaches step s s :=
  Relation.ReflTransGen.refl

theorem Reaches.tail {step : σ → σ ⊕ ρ} {s s' s'' : σ} (h : Reaches step s s')
    (hs : step s' = .inl s'') : Reaches step s s'' :=
  Relation.ReflTransGen.tail h hs

/-- **Invariant rule.** What holds at the start and is kept by every round holds
in every state of the run. -/
theorem Reaches.invariant {step : σ → σ ⊕ ρ} {s s' : σ} (h : Reaches step s s')
    {P : σ → Prop} (hs : P s) (hstep : ∀ {s₁ s₂}, P s₁ → step s₁ = .inl s₂ → P s₂) :
    P s' := by
  induction h with
  | refl => exact hs
  | tail _ hround ih => exact hstep ih hround

/-- A result is the result of the last round, in a state of the run. -/
theorem exists_of_iterate {step : σ → σ ⊕ ρ} {n : Nat} {s : σ} {r : ρ}
    (h : iterate step n s = some r) : ∃ s', Reaches step s s' ∧ step s' = .inr r := by
  induction n generalizing s with
  | zero => exact absurd h (by simp [iterate])
  | succ n ih =>
    cases hs : step s with
    | inl s' =>
      rw [iterate_inl hs] at h
      obtain ⟨t, ht, hr⟩ := ih h
      exact ⟨t, Relation.ReflTransGen.head hs ht, hr⟩
    | inr r' =>
      rw [iterate_inr hs, Option.some.injEq] at h
      exact ⟨s, Reaches.refl s, h ▸ hs⟩

/-- A run that reaches a state in which a round leaves the loop has a result. -/
theorem exists_iterate_of_reaches {step : σ → σ ⊕ ρ} {s s' : σ} {r : ρ}
    (h : Reaches step s s') (hr : step s' = .inr r) : ∃ n, iterate step n s = some r := by
  induction h using Relation.ReflTransGen.head_induction_on with
  | refl => exact ⟨1, iterate_inr hr 0⟩
  | head hs _ ih =>
    obtain ⟨n, hn⟩ := ih
    exact ⟨n + 1, by rw [iterate_inl hs, hn]⟩

/-! ## Termination -/

/-- **Variant rule.** When every round from a state with the invariant `P` keeps
`P` and lowers `μ`, then `μ s + 1` rounds from `s` leave the loop. -/
theorem iterate_of_measure (step : σ → σ ⊕ ρ) {P : σ → Prop} {μ : σ → Nat}
    (hstep : ∀ {s s'}, P s → step s = .inl s' → P s' ∧ μ s' < μ s) {s : σ} (hs : P s) :
    ∃ r, iterate step (μ s + 1) s = some r := by
  induction hn : μ s using Nat.strongRecOn generalizing s with
  | _ n ih =>
    cases h : step s with
    | inr r => exact ⟨r, iterate_inr h n⟩
    | inl s' =>
      obtain ⟨hs', hlt⟩ := hstep hs h
      -- the rest of the run needs at most as many rounds as the measure has gone down
      obtain ⟨r, hr⟩ := ih (μ s') (by omega) hs' rfl
      refine ⟨r, ?_⟩
      rw [iterate_inl h]
      exact iterate_mono (by omega) hr

/-! ## Loops over lists -/

section Fold

variable {α β ε : Type u} {f f' : β → α → Except ε β} {l : List α} {b r : β}

theorem exists_of_bind_ok {run : Except ε α} {g : α → Except ε β} (h : (run >>= g) = .ok b) :
    ∃ a, run = .ok a ∧ g a = .ok b := by
  cases run with
  | error e => cases h
  | ok a => exact ⟨a, rfl, h⟩

theorem exists_of_map_ok {run : Except ε α} {g : α → β} (h : run.map g = .ok b) :
    ∃ a, run = .ok a ∧ g a = b := by
  cases run with
  | error e => cases h
  | ok a => exact ⟨a, rfl, Except.ok.inj h⟩

/-- Rounds that succeed make a loop that does. -/
theorem foldlM_ok {g : β → α → β} (h : ∀ b, ∀ a ∈ l, f b a = .ok (g b a)) (b : β) :
    l.foldlM f b = .ok (l.foldl g b) := by
  induction l generalizing b with
  | nil => rfl
  | cons a l ih =>
    rw [List.foldlM_cons, h b a (List.mem_cons_self ..)]
    exact ih (fun b a' ha => h b a' (List.mem_cons_of_mem _ ha)) _

/-- Rounds that succeed wherever others do. -/
theorem foldlM_mono (h : ∀ b a r, f b a = .ok r → f' b a = .ok r) (hrun : l.foldlM f b = .ok r) :
    l.foldlM f' b = .ok r := by
  induction l generalizing b with
  | nil => exact hrun
  | cons a l ih =>
    rw [List.foldlM_cons] at hrun ⊢
    obtain ⟨b', hround, hrest⟩ := exists_of_bind_ok hrun
    rw [h b a b' hround]
    exact ih hrest

/-- The result of a loop whose rounds give known results when they succeed. -/
theorem foldlM_eq {g : β → α → β} (h : ∀ b a r, f b a = .ok r → r = g b a)
    (hrun : l.foldlM f b = .ok r) : r = l.foldl g b := by
  have hg : ∀ b a r, f b a = .ok r → (Except.ok (g b a) : Except ε β) = .ok r :=
    fun b a r hr => congrArg _ (h b a r hr).symm
  have hok := (foldlM_mono hg hrun).symm.trans (foldlM_ok (fun _ _ _ => rfl) b)
  exact Except.ok.inj hok

/-- **Invariant rule** for loops over lists. -/
theorem foldlM_invariant {P : β → Prop} (h : ∀ b, ∀ a ∈ l, ∀ r, P b → f b a = .ok r → P r)
    (hb : P b) (hrun : l.foldlM f b = .ok r) : P r := by
  induction l generalizing b with
  | nil => exact Except.ok.inj hrun ▸ hb
  | cons a l ih =>
    rw [List.foldlM_cons] at hrun
    obtain ⟨b', hround, hrest⟩ := exists_of_bind_ok hrun
    exact ih (fun b a' ha => h b a' (List.mem_cons_of_mem _ ha))
      (h b a (List.mem_cons_self ..) b' hb hround) hrest

/-- A loop succeeds when all of its rounds do, if a round does so in every state or none. -/
theorem exists_foldlM_iff {P : α → Prop} (h : ∀ b a, (∃ r, f b a = .ok r) ↔ P a) :
    (∃ r, l.foldlM f b = .ok r) ↔ ∀ a ∈ l, P a := by
  induction l generalizing b with
  | nil => simpa using ⟨b, rfl⟩
  | cons a l ih =>
    rw [List.forall_mem_cons, List.foldlM_cons, ← h b a]
    constructor
    · intro hex
      obtain ⟨r, hr⟩ := hex
      obtain ⟨b', hround, hrest⟩ := exists_of_bind_ok hr
      exact ⟨⟨b', hround⟩, ih.mp ⟨r, hrest⟩⟩
    · intro hall
      obtain ⟨⟨b', hround⟩, hrest⟩ := hall
      rw [hround]
      exact ih.mpr hrest

end Fold

end Loop
