import Mathlib.Algebra.Group.Nat.Defs
import Mathlib.Data.List.Basic

/-! # Arrays that grow by doubling

An array that is full gets twice the room, until what it shall hold fits in. The
room is a word of `w` bits: doubled too often it becomes 0, and the array then
gets exactly what is asked for.
-/

namespace Growth

variable (w n : ℕ)

/-- Double `m` until it is at least `n` or has become 0, at most `k` times. -/
def doubled : ℕ → ℕ → ℕ
  | 0, m => m
  | k + 1, m => if m < n ∧ m ≠ 0 then doubled k (2 * m % 2 ^ w) else m

/-- The room of an array that shall hold `n` elements and had room for `max`; an
array without room starts with `least`. A word is 0 after `w` doublings. -/
def room (least max : ℕ) : ℕ :=
  match doubled w n w (if max = 0 then least else max) with
  | 0 => n
  | m + 1 => m + 1

variable {w n}

/-- Doubling ends at `n` or at 0, given as many turns as the word has bits
to lose. -/
theorem doubled_done {i k m : ℕ} (hdvd : 2 ^ i ∣ m) (hlt : m < 2 ^ w) (hw : w ≤ i + k) :
    n ≤ doubled w n k m ∨ doubled w n k m = 0 := by
  induction k generalizing i m with
  | zero =>
    -- all bits are lost
    right
    have hpow : 2 ^ w ∣ m := Nat.dvd_trans (Nat.pow_dvd_pow 2 (by omega)) hdvd
    exact Nat.eq_zero_of_dvd_of_lt hpow hlt
  | succ k ih =>
    unfold doubled
    split
    · have hdouble : 2 ^ (i + 1) ∣ 2 * m := by
        rw [Nat.pow_succ, Nat.mul_comm]
        exact Nat.mul_dvd_mul_left 2 hdvd
      have hdvd' : 2 ^ min (i + 1) w ∣ 2 * m % 2 ^ w := by
        refine (Nat.dvd_mod_iff (Nat.pow_dvd_pow 2 (Nat.min_le_right _ _))).mpr ?_
        exact Nat.dvd_trans (Nat.pow_dvd_pow 2 (Nat.min_le_left _ _)) hdouble
      exact ih hdvd' (Nat.mod_lt _ (Nat.two_pow_pos w)) (by omega)
    · omega

/-- Doubling stops before twice what is asked for. -/
theorem doubled_le (k : ℕ) {m : ℕ} (hm : m ≤ 2 * n) (hn : 2 * n < 2 ^ w) :
    doubled w n k m ≤ 2 * n := by
  induction k generalizing m with
  | zero => exact hm
  | succ k ih =>
    unfold doubled
    split
    · rename_i hlt
      rw [Nat.mod_eq_of_lt (by omega)]
      exact ih (by omega)
    · exact hm

theorem room_le {least max : ℕ} (hleast : least ≤ 2 * n) (hmax : max ≤ 2 * n)
    (hn : 2 * n < 2 ^ w) : room w n least max ≤ 2 * n := by
  have hstart : (if max = 0 then least else max) ≤ 2 * n := by
    split
    · exact hleast
    · exact hmax
  have hle := doubled_le w hstart hn
  unfold room
  split <;> omega

section Room

variable {least max : ℕ} (hleast : least < 2 ^ w) (hmax : max < 2 ^ w)

include hleast hmax

theorem start_lt : (if max = 0 then least else max) < 2 ^ w := by
  split
  · exact hleast
  · exact hmax

/-- What is asked for fits in. -/
theorem le_room : n ≤ room w n least max := by
  have hdone := doubled_done (n := n) (i := 0) (k := w) (Nat.one_dvd _) (start_lt hleast hmax)
    (Nat.le_of_eq (Nat.zero_add w).symm)
  unfold room
  split
  · exact Nat.le_refl n
  · omega

end Room

end Growth
