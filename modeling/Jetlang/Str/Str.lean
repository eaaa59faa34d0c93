import Mathlib.Data.BitVec
import Jetlang.Mem.Block
import Jetlang.Sym.Judy

/-! # The strings of `str.c`

`str_make_string` and `_make_sym` each allocate a block for a length and the
bytes behind it. Where the first should round the number of bytes up to a
multiple of 8, it takes its remainder modulo 8 and adds 8, so the data part has
8 to 15 bytes whatever the length is.
-/

namespace Jetlang.Str

open Mem

/-! ## The code -/

/-- `string_t`: the length, and the block of the data part. -/
structure StringT where
  len : BitVec 32
  data : Block 1 UInt8

/-- `sizeof(string_t)`: the length; the data part is a flexible array. -/
def sizeofString : BitVec 64 := 4

/-- `sizeof(char)`. -/
def sizeofChar : BitVec 64 := 1

/-- The size of the block `str_make_string` allocates: the sum in parentheses
is an `int`, the product and the other sum are `size_t`. -/
def makeStringSize (len : BitVec 32) : BitVec 64 :=
  (((len + 1) &&& 7) + 8).signExtend 64 * sizeofChar + sizeofString

/-- The bytes of the data part. -/
def dataBytes (len : BitVec 32) : ℕ := (makeStringSize len - sizeofString).toNat

/-- `str_make_string`. There is no result when the bytes copied do not fit in
the data part of the block. -/
def strMakeString (data : List UInt8) (len : BitVec 32) : Option StringT :=
  match (Block.malloc (dataBytes len)).copy (data.take len.toNat) with
  | some block => some ⟨len, block⟩
  | none => none

/-! ## What is asked of the blocks -/

/-- `str_make_string` copies all bytes inside its block, where they read back. -/
def Copies (data : List UInt8) : Prop :=
  ∃ str, strMakeString data (BitVec.ofNat 32 data.length) = some str ∧
    str.len.toNat = data.length ∧ str.data.Holds data

/-- The blocks for the bytes `data` are large enough, and that of the string is
a multiple of 8. -/
structure LargeEnough (data : List UInt8) : Prop where
  copies : Copies data
  multiple : 8 ∣ dataBytes (BitVec.ofNat 32 data.length)
  symbol : data.length + 1 ≤ Sym.makeSymSize data.length - Sym.sizeofSymbol

/-! ## The sizes -/

/-- The data part of a string depends on the length modulo 8 only. -/
theorem dataBytes_eq (len : ℕ) :
    dataBytes (BitVec.ofNat 32 len) = (len + 1) % 8 + 8 := by
  have hmask : ((BitVec.ofNat 32 len + 1) &&& 7).toNat = (len + 1) % 8 := by
    rw [BitVec.toNat_and, BitVec.toNat_add, BitVec.toNat_ofNat]
    show ((len % 2 ^ 32 + 1) % 2 ^ 32) &&& (2 ^ 3 - 1) = (len + 1) % 8
    rw [Nat.and_two_pow_sub_one_eq_mod]
    omega
  have hsum : (((BitVec.ofNat 32 len + 1) &&& 7) + 8).toNat = (len + 1) % 8 + 8 := by
    rw [BitVec.toNat_add, hmask]
    show ((len + 1) % 8 + 8) % 2 ^ 32 = _
    omega
  -- the sum is not negative, so it is converted unchanged
  have hmsb : (((BitVec.ofNat 32 len + 1) &&& 7) + 8).msb = false := by
    rw [BitVec.msb_eq_false_iff_two_mul_lt, hsum]
    omega
  unfold dataBytes makeStringSize sizeofChar
  rw [show (1 : BitVec 64) = 1#64 from rfl, BitVec.mul_one, BitVec.add_sub_cancel,
    BitVec.signExtend_eq_setWidth_of_msb_false hmsb, BitVec.toNat_setWidth, hsum]
  omega

/-- A string fits up to 14 bytes. -/
theorem copies_iff {data : List UInt8} (hlen : data.length ≤ 2 ^ 31 - 2) :
    Copies data ↔ data.length ≤ 14 := by
  have hnat : (BitVec.ofNat 32 data.length).toNat = data.length := by
    rw [BitVec.toNat_ofNat]
    omega
  have hspec := Block.copy_spec
    (Block.malloc (dataBytes (BitVec.ofNat 32 data.length)) : Block 1 UInt8) data
  have hroom : (Block.malloc (dataBytes (BitVec.ofNat 32 data.length)) : Block 1 UInt8).room =
      (data.length + 1) % 8 + 8 := by
    rw [← dataBytes_eq]
    exact Nat.div_one _
  have hfits : data.length ≤ (data.length + 1) % 8 + 8 ↔ data.length ≤ 14 := by omega
  rw [hroom, hfits] at hspec
  rw [← hspec]
  unfold Copies strMakeString
  rw [hnat, List.take_length]
  constructor
  · rintro ⟨str, hmake, -, hholds⟩
    split at hmake
    · rename_i block hcopy
      cases hmake
      refine ⟨block, hcopy, ?_, hholds⟩
      unfold Block.copy at hcopy
      split at hcopy
      · cases hcopy
        rfl
      · cases hcopy
    · cases hmake
  · rintro ⟨block, hcopy, -, hholds⟩
    rw [hcopy]
    exact ⟨_, rfl, hnat, hholds⟩

/-- The data part is a multiple of 8 for every eighth length. -/
theorem multiple_iff (len : ℕ) :
    8 ∣ dataBytes (BitVec.ofNat 32 len) ↔ len % 8 = 7 := by
  rw [dataBytes_eq]
  omega

/-- The block of a symbol has room for all bytes copied. -/
theorem symbol_fits {len : ℕ} (hlen : len ≤ 2 ^ 31 - 2) :
    len + 1 ≤ Sym.makeSymSize len - Sym.sizeofSymbol := by
  unfold Sym.makeSymSize Sym.sizeofSymbol
  omega

/-- **When the blocks are large enough.** For 7 bytes: longer strings than 14
bytes do not fit, and among the others only those of 7 get a multiple of 8. -/
theorem largeEnough_iff (data : List UInt8) (hlen : data.length ≤ 2 ^ 31 - 2) :
    LargeEnough data ↔ data.length = 7 := by
  constructor
  · intro h
    have hcopies := (copies_iff hlen).mp h.copies
    have hmultiple := (multiple_iff _).mp h.multiple
    omega
  · intro h
    exact ⟨(copies_iff hlen).mpr (by omega), (multiple_iff _).mpr (by omega), symbol_fits hlen⟩

/-- Seven bytes. -/
theorem largeEnough_seven : LargeEnough [1, 2, 3, 4, 5, 6, 7] :=
  (largeEnough_iff [1, 2, 3, 4, 5, 6, 7] (by decide)).mpr rfl

/-- Sixteen bytes are copied to a data part of 9. -/
theorem largeEnough_counterexample : ¬ LargeEnough (List.replicate 16 97) := by
  intro h
  have hlen : (List.replicate 16 (97 : UInt8)).length ≤ 14 :=
    (copies_iff (by rw [List.length_replicate]; decide)).mp h.copies
  rw [List.length_replicate] at hlen
  omega

end Jetlang.Str
