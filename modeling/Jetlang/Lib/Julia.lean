import Mathlib.Data.BitVec

/-! # Julia strings, characters and integers

What the parts written in Julia use of their language: the code units of a
`String`, and the conversions and the division of `Int32` that can raise.
-/

namespace Julia

/-- The exceptions the modelled code can raise. -/
inductive Exn where
  | assertion
  | inexact
  | bounds
  | divide
deriving DecidableEq, Repr

/-! ## Strings -/

/-- The code units of a `String`: its characters in UTF-8. -/
def codeunits (s : List Char) : List UInt8 := s.flatMap String.utf8EncodeChar

/-- Every character is below `U+0080`. -/
def Ascii (s : List Char) : Prop := ∀ c ∈ s, c.utf8Size = 1

/-- `Char(x)` for an `x :: Cchar`, given as the byte: a negative value is not a
character. -/
def charOfCchar (b : UInt8) : Except Exn Char :=
  if b.toNat < 128 then
    .ok (Char.ofNat b.toNat)
  else
    .error .inexact

theorem codeunits_nil : codeunits [] = [] := rfl

theorem codeunits_cons (c : Char) (s : List Char) :
    codeunits (c :: s) = String.utf8EncodeChar c ++ codeunits s := List.flatMap_cons

theorem Ascii.head {c : Char} {s : List Char} (h : Ascii (c :: s)) : c.utf8Size = 1 :=
  h c List.mem_cons_self

theorem Ascii.tail {c : Char} {s : List Char} (h : Ascii (c :: s)) : Ascii s :=
  fun d hd => h d (List.mem_cons_of_mem c hd)

/-- No string has fewer code units than characters. -/
theorem length_le_codeunits (s : List Char) : s.length ≤ (codeunits s).length := by
  induction s with
  | nil => exact Nat.le_refl 0
  | cons c s ih =>
    have := c.utf8Size_pos
    rw [codeunits_cons, List.length_append, String.length_utf8EncodeChar, List.length_cons]
    omega

/-- Only ASCII strings have as many code units as characters. -/
theorem ascii_iff_length (s : List Char) : Ascii s ↔ (codeunits s).length = s.length := by
  induction s with
  | nil => simp [Ascii, codeunits_nil]
  | cons c s ih =>
    have hpos := c.utf8Size_pos
    have hle := length_le_codeunits s
    rw [codeunits_cons, List.length_append, String.length_utf8EncodeChar, List.length_cons]
    constructor
    · intro h
      rw [h.head, ih.mp h.tail]
      omega
    · intro h d hd
      rcases List.mem_cons.mp hd with rfl | hd
      · omega
      · exact ih.mpr (by omega) d hd

/-- The one code unit of an ASCII character converts back to it. -/
theorem charOfCchar_encode {c : Char} (hc : c.utf8Size = 1) :
    ∃ b, String.utf8EncodeChar c = [b] ∧ charOfCchar b = .ok c := by
  have hval : c.val.toNat ≤ 127 := Char.utf8Size_eq_one_iff.mp hc
  have hascii : c.toNat < 128 := Nat.lt_succ_of_le hval
  have hbyte : (UInt8.ofNat c.val.toNat).toNat = c.toNat := by
    rw [UInt8.toNat_ofNat']
    exact Nat.mod_eq_of_lt (by omega)
  refine ⟨UInt8.ofNat c.val.toNat, by rw [String.utf8EncodeChar, if_pos hval], ?_⟩
  unfold charOfCchar
  rw [hbyte, if_pos hascii, Char.ofNat_toNat]

/-- Converting each code unit of an ASCII string gives its characters. -/
theorem mapM_charOfCchar {s : List Char} (h : Ascii s) :
    (codeunits s).mapM charOfCchar = .ok s := by
  induction s with
  | nil => rfl
  | cons c s ih =>
    rcases charOfCchar_encode h.head with ⟨b, hb, hchar⟩
    rw [codeunits_cons, hb, List.singleton_append, List.mapM_cons, hchar, ih h.tail]
    rfl

/-! ## `Int32` -/

/-- `string(x)` of an `Int32`: its decimal digits, after the sign. -/
def string (x : BitVec 32) : List Char :=
  if x.toInt < 0 then
    '-' :: Nat.toDigits 10 x.toInt.natAbs
  else
    Nat.toDigits 10 x.toInt.natAbs

theorem mem_string {x : BitVec 32} {c : Char} (h : c ∈ string x) : c = '-' ∨ c.isDigit = true := by
  have hdigit : c ∈ Nat.toDigits 10 x.toInt.natAbs → c.isDigit = true :=
    Nat.isDigit_of_mem_toDigits (by decide) (by decide)
  unfold string at h
  split at h
  · exact (List.mem_cons.mp h).imp_right hdigit
  · exact Or.inr (hdigit h)

/-- A printed `Int32` stays on its line. -/
theorem newline_notMem_string (x : BitVec 32) : (10 : UInt8) ∉ codeunits (string x) := by
  intro h
  rcases List.mem_flatMap.mp h with ⟨c, hc, hbyte⟩
  rcases mem_string hc with rfl | hdigit
  · revert hbyte
    decide
  · -- a digit is encoded as itself
    have hascii : c.utf8Size = 1 :=
      Char.utf8Size_eq_one_iff.mpr (Nat.le_trans (Char.isDigit_iff_toNat.mp hdigit).2 (by decide))
    rcases charOfCchar_encode hascii with ⟨b, hb, hchar⟩
    rw [hb, List.mem_singleton] at hbyte
    obtain rfl : '\n' = c := by
      rw [← hbyte] at hchar
      exact Except.ok.inj hchar
    exact absurd hdigit (by decide)

/-- `x ÷ y` of `Int32`s: the quotient truncated toward zero. It raises when the
divisor is 0, and when the quotient is not an `Int32`. -/
def idiv (x y : BitVec 32) : Except Exn (BitVec 32) :=
  if y = 0 ∨ (x = BitVec.intMin 32 ∧ y = -1) then
    .error .divide
  else
    .ok (x.sdiv y)

/-- A quotient that exists and is an `Int32` is computed. -/
theorem idiv_eq {x y : BitVec 32} (hy : y.toInt ≠ 0) (hq : x.toInt.tdiv y.toInt < 2 ^ 31) :
    ∃ q, idiv x y = .ok q ∧ q.toInt = x.toInt.tdiv y.toInt := by
  have hzero : y ≠ 0 := fun h => hy (by rw [h]; rfl)
  have hwrap : ¬ (x = BitVec.intMin 32 ∧ y = -1) := by
    rintro ⟨rfl, rfl⟩
    revert hq
    decide
  refine ⟨x.sdiv y, if_neg (not_or.mpr ⟨hzero, hwrap⟩), ?_⟩
  exact BitVec.toInt_sdiv_of_ne_or_ne x y (not_and_or.mp hwrap)

end Julia
