import Mathlib.Data.BitVec
import Jetlang.Lib.Decimal

/-! # `_atoi_u`, the plain decimal conversion

The text is the list of its characters, as bytes. The result is kept in an
`int`, and the two builtins say whether it overflowed.
-/

namespace Jetlang.Ins

open Decimal

/-! ## The code -/

/-- What the overflow builtins make of an exact result: the flag, and the `int`
they store. -/
def checked (x : ℤ) : Bool × BitVec 32 :=
  (decide ((BitVec.ofInt 32 x).toInt ≠ x), BitVec.ofInt 32 x)

/-- `__builtin_mul_overflow`. -/
def mulOverflow (a : BitVec 32) (b : ℤ) : Bool × BitVec 32 := checked (a.toInt * b)

/-- `__builtin_add_overflow`. -/
def addOverflow (a : BitVec 32) (b : ℤ) : Bool × BitVec 32 := checked (a.toInt + b)

/-- The loop of `_atoi_u`: whether it was left by `return 1`, and `*res`. -/
def atoiULoop (res : BitVec 32) : List UInt8 → Bool × BitVec 32
  | [] => (false, res)
  | f :: text =>
      let cc : UInt8 := f - 48
      let (c1, res) := mulOverflow res 10
      let (c2, res) := addOverflow res cc.toNat
      if c1 || c2 then
        (true, res)
      else
        atoiULoop res text

/-- `_atoi_u`: the return value, and `*res`. -/
def atoiU (text : List UInt8) (res : BitVec 32) : ℕ × BitVec 32 :=
  let sign : ℤ := if text.head? = some 45 then -1 else 1
  match atoiULoop res text with
  | (true, res) => (1, res)
  | (false, res) => (0, (mulOverflow res sign).2)

/-! ## Decimal texts -/

/-- An optional `-` and one or more digits. -/
structure DecimalText where
  neg : Bool
  digits : List (Fin 10)
  nonempty : digits ≠ []

/-- The characters of some digits. -/
def digitChars (ds : List (Fin 10)) : List UInt8 := ds.map fun d => 48 + UInt8.ofNat d.val

/-- The number of some digits. -/
def digitsValue (ds : List (Fin 10)) : ℕ := value (ds.map Fin.val)

/-- The characters of the text. -/
def DecimalText.chars (t : DecimalText) : List UInt8 :=
  if t.neg then 45 :: digitChars t.digits else digitChars t.digits

/-- The integer the text denotes. -/
def DecimalText.denotes (t : DecimalText) : ℤ :=
  if t.neg then -(digitsValue t.digits : ℤ) else digitsValue t.digits

/-- The conversion of a text is exact: its integer is returned if it is an
`int`, and the failure is reported if it is not. -/
def Exact (t : DecimalText) : Prop :=
  if -2 ^ 31 ≤ t.denotes ∧ t.denotes ≤ 2 ^ 31 - 1 then
    (atoiU t.chars 0).1 = 0 ∧ (atoiU t.chars 0).2.toInt = t.denotes
  else
    (atoiU t.chars 0).1 = 1

/-! ## The loop -/

/-- A result that is an `int` is stored as it is. -/
theorem checked_of_fits {x : ℤ} (hlo : -2 ^ 31 ≤ x) (hhi : x < 2 ^ 31) :
    (checked x).1 = false ∧ (checked x).2.toInt = x := by
  have hx : (BitVec.ofInt 32 x).toInt = x := BitVec.toInt_ofInt_eq_self (by decide) hlo hhi
  unfold checked
  exact ⟨decide_eq_false fun hne => hne hx, hx⟩

/-- A result that is too large is reported. -/
theorem checked_of_large {x : ℤ} (hx : 2 ^ 31 ≤ x) : (checked x).1 = true := by
  have hlt := BitVec.toInt_lt (x := BitVec.ofInt 32 x)
  unfold checked
  apply decide_eq_true
  intro heq
  rw [heq] at hlt
  norm_num at hlt
  omega

/-- One turn, when the number stays an `int`. -/
theorem atoiULoop_next {res : BitVec 32} {p : ℕ} (hres : res.toInt = p) (f : UInt8)
    (text : List UInt8) (hfits : 10 * p + (f - 48).toNat < 2 ^ 31) :
    ∃ res', atoiULoop res (f :: text) = atoiULoop res' text ∧
      res'.toInt = (10 * p + (f - 48).toNat : ℕ) := by
  have hmul : (mulOverflow res 10).1 = false ∧ (mulOverflow res 10).2.toInt = res.toInt * 10 :=
    checked_of_fits (by omega) (by omega)
  have hadd := checked_of_fits (x := (mulOverflow res 10).2.toInt + (f - 48).toNat)
    (by omega) (by omega)
  refine ⟨_, ?_, hadd.2.trans ?_⟩
  · rw [atoiULoop]
    simp [hmul.1, addOverflow, hadd.1]
  · rw [hmul.2, hres]
    push_cast
    ring

/-- One turn, when the number leaves `int`: one of the two flags is set. -/
theorem atoiULoop_overflow {res : BitVec 32} {p : ℕ} (hres : res.toInt = p) (f : UInt8)
    (text : List UInt8) (hover : 2 ^ 31 ≤ 10 * p + (f - 48).toNat) :
    (atoiULoop res (f :: text)).1 = true := by
  -- either the product is too large, or it fits and the sum is
  by_cases hlarge : 2 ^ 31 ≤ 10 * p
  · have hc1 : (mulOverflow res 10).1 = true := checked_of_large (by omega)
    rw [atoiULoop]
    simp [hc1]
  · have hmul : (mulOverflow res 10).2.toInt = res.toInt * 10 :=
      (checked_of_fits (by omega) (by omega)).2
    have hc2 : (addOverflow (mulOverflow res 10).2 (f - 48).toNat).1 = true :=
      checked_of_large (by omega)
    rw [atoiULoop]
    simp [hc2]

/-- The numbers the loop adds. -/
def codes (text : List UInt8) : List ℕ := text.map fun f => (f - 48).toNat

/-- The loop computes the accumulated number, and reports exactly when it is not
an `int`. The induction is on the text, and the number only grows. -/
theorem atoiULoop_eq {res : BitVec 32} {p : ℕ} (hres : res.toInt = p) (hp : p < 2 ^ 31)
    (text : List UInt8) :
    (accum p (codes text) < 2 ^ 31 →
      ∃ res', atoiULoop res text = (false, res') ∧ res'.toInt = accum p (codes text)) ∧
    (2 ^ 31 ≤ accum p (codes text) → (atoiULoop res text).1 = true) := by
  induction text generalizing res p with
  | nil => exact ⟨fun _ => ⟨res, rfl, hres⟩, fun hover => absurd hp (Nat.not_lt.mpr hover)⟩
  | cons f text ih =>
    have hcodes : accum p (codes (f :: text)) = accum (10 * p + (f - 48).toNat) (codes text) := rfl
    rw [hcodes]
    by_cases hfits : 10 * p + (f - 48).toNat < 2 ^ 31
    · rcases atoiULoop_next hres f text hfits with ⟨res', hnext, hres'⟩
      rw [hnext]
      exact ih hres' hfits
    · have hle := le_accum (10 * p + (f - 48).toNat) (codes text)
      exact ⟨fun hlt => by omega, fun _ => atoiULoop_overflow hres f text (by omega)⟩

/-! ## The conversion -/

/-- `_atoi_u` returns the accumulated number, with the sign, if that number is
an `int`, and fails if it is not. -/
theorem atoiU_eq (text : List UInt8) :
    (accum 0 (codes text) < 2 ^ 31 → (atoiU text 0).1 = 0 ∧ (atoiU text 0).2.toInt =
      if text.head? = some 45 then -(accum 0 (codes text) : ℤ) else accum 0 (codes text)) ∧
    (2 ^ 31 ≤ accum 0 (codes text) → (atoiU text 0).1 = 1) := by
  have hzero : (0 : BitVec 32).toInt = (0 : ℕ) := rfl
  have hloop := atoiULoop_eq hzero (by decide) text
  constructor
  · intro hfits
    rcases hloop.1 hfits with ⟨res, hrun, hres⟩
    unfold atoiU
    rw [hrun]
    refine ⟨rfl, ?_⟩
    -- the sign is multiplied in, which cannot overflow
    by_cases hsign : text.head? = some 45
    · simp only [if_pos hsign]
      have hmul := (checked_of_fits (x := res.toInt * -1) (by omega) (by omega)).2
      show (checked (res.toInt * -1)).2.toInt = _
      rw [hmul, hres]
      ring
    · simp only [if_neg hsign]
      have hmul := (checked_of_fits (x := res.toInt * 1) (by omega) (by omega)).2
      show (checked (res.toInt * 1)).2.toInt = _
      rw [hmul, hres]
      ring
  · intro hover
    have hfail := hloop.2 hover
    unfold atoiU
    cases hrun : atoiULoop 0 text with
    | mk failed res =>
      rw [hrun] at hfail
      rw [show failed = true from hfail]

/-- Every character of a digit is read back as that digit. -/
theorem code_digitChar (d : Fin 10) : (48 + UInt8.ofNat d.val - 48).toNat = d.val := by
  revert d
  decide

theorem codes_digitChars (ds : List (Fin 10)) : codes (digitChars ds) = ds.map Fin.val := by
  unfold codes digitChars
  rw [List.map_map]
  apply List.map_congr_left
  intro d _
  exact code_digitChar d

/-- No digit is a `-`. -/
theorem head_digitChars (ds : List (Fin 10)) : (digitChars ds).head? ≠ some 45 := by
  cases ds with
  | nil => simp [digitChars]
  | cons d ds =>
    have hne : ∀ d : Fin 10, 48 + UInt8.ofNat d.val ≠ 45 := by decide
    intro hhead
    exact hne d (Option.some.inj hhead)

/-- A `-` is taken for a digit of value 253. -/
theorem codes_minus (ds : List (Fin 10)) :
    accum 0 (codes (45 :: digitChars ds)) = accum 253 (ds.map Fin.val) := by
  show accum 253 (codes (digitChars ds)) = _
  rw [codes_digitChars]

/-- A text without a `-` is converted exactly. -/
theorem exact_of_digits {t : DecimalText} (hneg : t.neg = false) : Exact t := by
  have hchars : t.chars = digitChars t.digits := by
    unfold DecimalText.chars
    rw [hneg]
    rfl
  have hdenotes : t.denotes = digitsValue t.digits := by
    unfold DecimalText.denotes
    rw [hneg]
    rfl
  have hspec := atoiU_eq (digitChars t.digits)
  rw [codes_digitChars, if_neg (head_digitChars _)] at hspec
  unfold Exact
  rw [hchars, hdenotes]
  unfold digitsValue value
  split
  · exact hspec.1 (by omega)
  · exact hspec.2 (by omega)

/-- A text with a `-` is converted exactly only if it is too large anyway. -/
theorem exact_of_minus {t : DecimalText} (hneg : t.neg = true) :
    Exact t ↔ 2 ^ 31 < digitsValue t.digits := by
  have hchars : t.chars = 45 :: digitChars t.digits := by
    unfold DecimalText.chars
    rw [hneg]
    rfl
  have hdenotes : t.denotes = -(digitsValue t.digits : ℤ) := by
    unfold DecimalText.denotes
    rw [hneg]
    rfl
  have hspec := atoiU_eq (45 :: digitChars t.digits)
  rw [codes_minus] at hspec
  have hmore : digitsValue t.digits < accum 253 (t.digits.map Fin.val) :=
    value_lt_accum (by decide) _
  unfold Exact
  rw [hchars, hdenotes]
  constructor
  · intro hexact
    -- the result would be the negated sum that starts at 253, which is larger
    by_contra hsmall
    rw [if_pos (by omega)] at hexact
    by_cases hfits : accum 253 (t.digits.map Fin.val) < 2 ^ 31
    · have hres := (hspec.1 hfits).2
      rw [hexact.2, List.head?_cons, if_pos rfl] at hres
      omega
    · rw [hspec.2 (by omega)] at hexact
      exact absurd hexact.1 (by decide)
  · intro hlarge
    rw [if_neg (by omega)]
    exact hspec.2 (by omega)

/-- **When the conversion is exact.** For every text without a `-`, and for those
with one whose integer is below `-2^31`. -/
theorem exact_iff (t : DecimalText) :
    Exact t ↔ t.neg = false ∨ 2 ^ 31 < digitsValue t.digits := by
  cases hneg : t.neg with
  | false => exact ⟨fun _ => Or.inl rfl, fun _ => exact_of_digits hneg⟩
  | true =>
    rw [exact_of_minus hneg]
    simp

/-- `"-5"` is converted to -2535. -/
theorem exact_counterexample : ¬ ∀ t, Exact t := by
  intro hall
  have hfive := hall ⟨true, [5], by decide⟩
  exact absurd hfive (by unfold Exact; decide)

example : atoiU [45, 53] 0 = (0, BitVec.ofInt 32 (-2535)) := by decide

end Jetlang.Ins
