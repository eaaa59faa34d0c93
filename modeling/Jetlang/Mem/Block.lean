import Mathlib.Algebra.Group.Nat.Defs
import Mathlib.Data.List.Basic
import Mathlib.Order.Basic

/-! # Blocks of typed slots

A block is what `malloc` and `realloc` hand out: `size` bytes, seen as slots of
`width` bytes each. A slot nothing was written to holds `none`. Every access
outside the block is refused, so an operation that returns `some` has touched
the inside of the block only. `Holds b xs` says that the first slots of `b`
are the list `xs`; growing, writing at the end and reversing in place are
described by what they do to that list.
-/

namespace Mem

/-- A block of `size` bytes, divided into slots of `width` bytes. -/
structure Block (width : ℕ) (α : Type) where
  size : ℕ
  slots : List (Option α)
  fits : slots.length = size / width

namespace Block

variable {w : ℕ} {α : Type}

/-- The number of slots in the block. -/
def room (b : Block w α) : ℕ := b.size / w

/-- A new block: no slot is initialised. -/
def malloc (size : ℕ) : Block w α where
  size := size
  slots := List.replicate (size / w) none
  fits := by simp

/-- A resized block: the slots common to both sizes are kept, new ones are not
initialised. -/
def realloc (b : Block w α) (size : ℕ) : Block w α where
  size := size
  slots := (b.slots ++ List.replicate (size / w) none).take (size / w)
  fits := by simp

/-- Write slot `i`; refused outside the block. -/
def write (b : Block w α) (i : ℕ) (x : α) : Option (Block w α) :=
  if i < b.room then
    some { b with slots := b.slots.set i (some x), fits := by simp [b.fits] }
  else
    none

/-- Copy a list into the first slots; refused when it is longer than the
block. -/
def copy (b : Block w α) (xs : List α) : Option (Block w α) :=
  if h : xs.length ≤ b.slots.length then
    some
      { b with
        slots := xs.map some ++ b.slots.drop xs.length
        fits := by
          rw [List.length_append, List.length_map, List.length_drop, ← b.fits]
          omega }
  else
    none

/-- Exchange the contents of two slots; refused outside the block. -/
def swap (b : Block w α) (i j : ℕ) : Option (Block w α) :=
  match b.slots[i]?, b.slots[j]? with
  | some x, some y =>
      some { b with slots := (b.slots.set i y).set j x, fits := by simp [b.fits] }
  | _, _ => none

/-- Exchange the slots `lo` and `hi`, then the next pair inward, until the two
meet. -/
def reverseBetween (b : Block w α) (lo hi : ℕ) : Option (Block w α) :=
  if lo < hi then
    match b.swap lo hi with
    | some b' => reverseBetween b' (lo + 1) (hi - 1)
    | none => none
  else
    some b
termination_by hi - lo

/-- The first slots of the block are the list `xs`. -/
def Holds (b : Block w α) (xs : List α) : Prop :=
  ∀ i < xs.length, b.slots[i]? = some xs[i]?

theorem holds_nil (b : Block w α) : b.Holds [] := by
  intro i hi
  simp at hi

theorem holds_length_le {b : Block w α} {xs : List α} (h : b.Holds xs) : xs.length ≤ b.room := by
  by_contra hlt
  -- the slot behind the last one of the block would hold an entry
  have hbound : b.room < xs.length := by omega
  have hnone : b.slots[b.room]? = none := by
    rw [List.getElem?_eq_none_iff, b.fits]
    exact Nat.le_refl _
  rw [h _ hbound] at hnone
  cases hnone

/-- A block holds one list of a length. -/
theorem Holds.unique {b : Block w α} {xs ys : List α} (hx : b.Holds xs) (hy : b.Holds ys)
    (hlen : xs.length = ys.length) : xs = ys := by
  refine List.ext_getElem? fun i => ?_
  by_cases hi : i < xs.length
  · have hslot := hx i hi
    rw [hy i (hlen ▸ hi)] at hslot
    exact (Option.some.inj hslot).symm
  · rw [List.getElem?_eq_none (Nat.not_lt.mp hi), List.getElem?_eq_none (by omega)]

/-- A write outside the block is refused. -/
theorem write_eq_none {b : Block w α} {i : ℕ} (x : α) (hi : b.room ≤ i) : b.write i x = none := by
  rw [write, if_neg (by omega)]

/-- A write just behind the list it holds appends to it. -/
theorem write_holds {b : Block w α} {xs : List α} (x : α) (h : b.Holds xs)
    (hroom : xs.length < b.room) :
    ∃ b', b.write xs.length x = some b' ∧ b'.size = b.size ∧ b'.Holds (xs ++ [x]) := by
  refine ⟨_, if_pos hroom, rfl, ?_⟩
  intro i hi
  have hlen : xs.length < b.slots.length := by
    rw [b.fits]
    exact hroom
  simp only [List.getElem?_set, List.getElem?_append]
  -- the new entry, or one that was there
  by_cases hx : xs.length = i
  · subst hx
    simp [hlen]
  · have hi' : i < xs.length := by
      simp only [List.length_append, List.length_singleton] at hi
      omega
    simp only [if_neg hx, if_pos hi']
    exact h i hi'

/-- Resizing keeps the list as long as it fits. -/
theorem realloc_holds {b : Block w α} {xs : List α} {n : ℕ} (h : b.Holds xs)
    (hn : xs.length ≤ n / w) : (b.realloc n).Holds xs := by
  intro i hi
  have hib : i < b.slots.length := by
    rw [b.fits]
    exact Nat.lt_of_lt_of_le hi (holds_length_le h)
  simp only [realloc, List.getElem?_take, List.getElem?_append, if_pos hib]
  rw [if_pos (by omega)]
  exact h i hi

/-- A copy succeeds exactly if the list fits in the block, which holds it
then. -/
theorem copy_spec (b : Block w α) (xs : List α) :
    (∃ b', b.copy xs = some b' ∧ b'.size = b.size ∧ b'.Holds xs) ↔ xs.length ≤ b.room := by
  unfold copy room
  rw [← b.fits]
  constructor
  · rintro ⟨b', hcopy, -⟩
    by_contra hgt
    rw [dif_neg hgt] at hcopy
    cases hcopy
  · intro hle
    refine ⟨_, dif_pos hle, rfl, ?_⟩
    intro i hi
    have himap : i < (xs.map some).length := by rwa [List.length_map]
    rw [List.getElem?_append_left himap, List.getElem?_map, List.getElem?_eq_getElem hi,
      Option.map_some]

/-! ## Reversal in place -/

/-- An exchange that is not refused moves two slots and keeps the others. -/
theorem swap_spec {b : Block w α} {i j : ℕ} (hi : i < b.room) (hj : j < b.room) :
    ∃ b', b.swap i j = some b' ∧ b'.size = b.size ∧
      ∀ k, b'.slots[k]? =
        if k = j then b.slots[i]? else if k = i then b.slots[j]? else b.slots[k]? := by
  have hi' : i < b.slots.length := by rw [b.fits]; exact hi
  have hj' : j < b.slots.length := by rw [b.fits]; exact hj
  have hswap : b.swap i j = some
      { b with
        slots := (b.slots.set i b.slots[j]).set j b.slots[i], fits := by simp [b.fits] } := by
    simp only [swap, List.getElem?_eq_getElem hi', List.getElem?_eq_getElem hj']
  refine ⟨_, hswap, rfl, ?_⟩
  intro k
  simp only [List.getElem?_set, List.length_set, hj', hi', if_true]
  -- `j` was written last
  by_cases hkj : k = j
  · rw [if_pos hkj.symm, if_pos hkj, List.getElem?_eq_getElem hi']
  · rw [if_neg (Ne.symm hkj), if_neg hkj]
    by_cases hki : k = i
    · rw [if_pos hki.symm, if_pos hki, List.getElem?_eq_getElem hj']
    · rw [if_neg (Ne.symm hki), if_neg hki]

/-- An exchange with a slot outside the block is refused. -/
theorem swap_eq_none {b : Block w α} {i j : ℕ} (hj : b.room ≤ j) : b.swap i j = none := by
  have hnone : b.slots[j]? = none := by
    rw [List.getElem?_eq_none_iff, b.fits]
    exact hj
  rw [swap, hnone]
  cases b.slots[i]? <;> rfl

/-- The two-pointer loop mirrors the slots from `lo` to `hi` and keeps the
others. The induction is on the distance of the two pointers. -/
theorem reverseBetween_spec (b : Block w α) (lo hi : ℕ) (hhi : hi < b.room) :
    ∃ b', b.reverseBetween lo hi = some b' ∧ b'.size = b.size ∧
      ∀ k, b'.slots[k]? =
        if lo ≤ k ∧ k ≤ hi then b.slots[lo + hi - k]? else b.slots[k]? := by
  induction hd : hi - lo using Nat.strongRecOn generalizing b lo hi with
  | ind d ih =>
    by_cases hlt : lo < hi
    · rcases swap_spec (b := b) (i := lo) (j := hi) (by omega) hhi with ⟨b₁, hb₁, hsize₁, hslots₁⟩
      have hroom₁ : b₁.room = b.room := by rw [room, room, hsize₁]
      rcases ih (hi - 1 - (lo + 1)) (by omega) b₁ (lo + 1) (hi - 1) (by omega) rfl
        with ⟨b₂, hb₂, hsize₂, hslots₂⟩
      refine ⟨b₂, ?_, hsize₂.trans hsize₁, ?_⟩
      · rw [reverseBetween, if_pos hlt, hb₁]
        exact hb₂
      · intro k
        rw [hslots₂ k]
        by_cases hin : lo + 1 ≤ k ∧ k ≤ hi - 1
        · -- strictly inside: the mirror of `k` was not moved by the exchange
          have hmirror : lo + 1 + (hi - 1) - k = lo + hi - k := by omega
          rw [if_pos hin, if_pos (by omega), hmirror, hslots₁, if_neg (by omega),
            if_neg (by omega)]
        · rw [if_neg hin, hslots₁]
          by_cases hkhi : k = hi
          · rw [if_pos hkhi, if_pos (by omega), hkhi, Nat.add_sub_cancel]
          · rw [if_neg hkhi]
            by_cases hklo : k = lo
            · rw [if_pos hklo, if_pos (by omega), hklo, Nat.add_sub_cancel_left]
            · rw [if_neg hklo, if_neg (by omega)]
    · -- the pointers have met: at most one slot is left between them
      refine ⟨b, by rw [reverseBetween, if_neg hlt], rfl, ?_⟩
      intro k
      by_cases hk : lo ≤ k ∧ k ≤ hi
      · have hkk : lo + hi - k = k := by omega
        rw [if_pos hk, hkk]
      · rw [if_neg hk]

/-- Reversing from the first to the last slot of a list it holds reverses the
list. -/
theorem reverseBetween_holds {b : Block w α} {xs : List α} (h : b.Holds xs) (hne : xs ≠ []) :
    ∃ b', b.reverseBetween 0 (xs.length - 1) = some b' ∧ b'.size = b.size ∧
      b'.Holds xs.reverse := by
  have hpos : 0 < xs.length := List.length_pos_iff.mpr hne
  have hroom := holds_length_le h
  rcases reverseBetween_spec b 0 (xs.length - 1) (by omega) with ⟨b', hb', hsize, hslots⟩
  refine ⟨b', hb', hsize, ?_⟩
  intro i hi
  rw [List.length_reverse] at hi
  rw [hslots, if_pos (by omega), h _ (by omega), List.getElem?_reverse hi]
  congr 2
  omega

/-- A loop whose upper pointer starts outside the block is refused. -/
theorem reverseBetween_eq_none {b : Block w α} {lo hi : ℕ} (hlt : lo < hi) (hhi : b.room ≤ hi) :
    b.reverseBetween lo hi = none := by
  rw [reverseBetween, if_pos hlt, swap_eq_none hhi]

end Block

/-! ## What `malloc` returns -/

/-- How many bytes of the block that `malloc` returns may be used: at least as many as
were asked for. -/
structure BlockSizes where
  usable : ℕ → ℕ
  le_usable : ∀ n, n ≤ usable n

/-- The bytes that were asked for, and no more. -/
def BlockSizes.exact : BlockSizes where
  usable := id
  le_usable := Nat.le_refl

/-- Whole units of 16 bytes. -/
def BlockSizes.sixteens : BlockSizes where
  usable n := 16 * ((n + 15) / 16)
  le_usable n := by omega

end Mem
