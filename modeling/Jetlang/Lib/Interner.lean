import Mathlib.Logic.Function.Basic

/-! # Interning, abstractly

An interner is a partial map from keys to symbols. A call on a key that has a
symbol returns it and changes nothing; a call on a new key gives it a symbol
no key has yet. That is all it takes for equal keys, and only those, to get
equal symbols, whatever the calls and their order.
-/

namespace Interner

variable {κ σ : Type} [DecidableEq κ]

/-- The runs of an interner: the calls with what they returned, and the map
they leave. -/
inductive Runs : List (κ × σ) → (κ → Option σ) → Prop where
  | init : Runs [] (fun _ => none)
  | hit {log : List (κ × σ)} {T : κ → Option σ} {k : κ} {s : σ} :
      Runs log T → T k = some s → Runs (log ++ [(k, s)]) T
  | miss {log : List (κ × σ)} {T : κ → Option σ} {k : κ} {s : σ} :
      Runs log T → T k = none → (∀ k', T k' ≠ some s) →
      Runs (log ++ [(k, s)]) (Function.update T k (some s))

variable {log : List (κ × σ)} {T : κ → Option σ}

/-- The map holds the calls made so far, and nothing else. -/
theorem mem_iff (h : Runs log T) (k : κ) (s : σ) : (k, s) ∈ log ↔ T k = some s := by
  induction h generalizing k s with
  | init => simp
  | @hit log T k₀ s₀ _ hfind ih =>
    rw [List.mem_append, List.mem_singleton, ih]
    constructor
    · rintro (h | h)
      · exact h
      · rw [Prod.mk.injEq] at h
        rw [h.1, h.2, hfind]
    · exact Or.inl
  | @miss log T k₀ s₀ _ hnone _ ih =>
    rw [List.mem_append, List.mem_singleton, ih, Function.update_apply]
    by_cases hk : k = k₀
    · subst hk
      simp [hnone, eq_comm]
    · simp [hk]

/-- No two keys share a symbol. -/
theorem injective (h : Runs log T) {k k' : κ} {s : σ} (hk : T k = some s) (hk' : T k' = some s) :
    k = k' := by
  induction h generalizing k k' s with
  | init => cases hk
  | hit _ _ ih => exact ih hk hk'
  | @miss log T k₀ s₀ _ _ hfresh ih =>
    rw [Function.update_apply] at hk hk'
    by_cases h₁ : k = k₀ <;> by_cases h₂ : k' = k₀
    · rw [h₁, h₂]
    · rw [if_pos h₁] at hk
      rw [if_neg h₂, ← hk] at hk'
      exact absurd hk' (hfresh k')
    · rw [if_pos h₂] at hk'
      rw [if_neg h₁, ← hk'] at hk
      exact absurd hk (hfresh k)
    · rw [if_neg h₁] at hk
      rw [if_neg h₂] at hk'
      exact ih hk hk'

/-- Two calls of a run return the same symbol exactly when their keys are the
same. -/
theorem eq_iff (h : Runs log T) {k k' : κ} {s s' : σ} (hk : (k, s) ∈ log) (hk' : (k', s') ∈ log) :
    s = s' ↔ k = k' := by
  rw [mem_iff h] at hk hk'
  constructor
  · rintro rfl
    exact injective h hk hk'
  · rintro rfl
    exact Option.some.inj (hk.symm.trans hk')

end Interner
