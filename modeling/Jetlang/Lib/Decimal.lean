import Mathlib.Tactic.Ring

/-! # Decimal numerals

`accum p ds` is the number read so far, `p`, followed by the digits `ds`. Nothing
bounds the digits: the lemmas hold for whatever a loop takes for a digit.
-/

namespace Decimal

/-- The digits `ds`, most significant first, read after the number `p`. -/
def accum (p : ℕ) (ds : List ℕ) : ℕ := ds.foldl (fun v d => 10 * v + d) p

/-- The number the digits denote. -/
def value (ds : List ℕ) : ℕ := accum 0 ds

@[simp] theorem accum_nil (p : ℕ) : accum p [] = p := rfl

@[simp] theorem accum_cons (p d : ℕ) (ds : List ℕ) :
    accum p (d :: ds) = accum (10 * p + d) ds := rfl

/-- Reading on never makes the number smaller. -/
theorem le_accum (p : ℕ) (ds : List ℕ) : p ≤ accum p ds := by
  induction ds generalizing p with
  | nil => exact Nat.le_refl p
  | cons d ds ih =>
    have := ih (10 * p + d)
    rw [accum_cons]
    omega

/-- The number read before the digits is shifted by their count. -/
theorem accum_eq (p : ℕ) (ds : List ℕ) : accum p ds = p * 10 ^ ds.length + value ds := by
  unfold value
  induction ds generalizing p with
  | nil => simp
  | cons d ds ih =>
    rw [accum_cons, accum_cons, ih (10 * p + d), ih (10 * 0 + d), List.length_cons, pow_succ]
    ring

/-- A number other than zero before the digits changes what they denote. -/
theorem value_lt_accum {p : ℕ} (hp : 0 < p) (ds : List ℕ) : value ds < accum p ds := by
  have hpow : 0 < 10 ^ ds.length := Nat.pow_pos (by decide)
  rw [accum_eq]
  exact Nat.lt_add_of_pos_left (Nat.mul_pos hp hpow)

end Decimal
