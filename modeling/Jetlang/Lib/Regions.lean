import Mathlib.Data.List.Flatten
import Mathlib.Data.List.Range
import Mathlib.Logic.Function.Basic

/-! # Regions of memory

Regions that do not touch each other, elements that lie in a row in a region, and
lists that are linked through memory, where each node is the address of a word that
has the address of the next node.
-/

namespace Regions

/-! ## Regions -/

/-- The addresses from `start`, `size` of them. -/
structure Region where
  start : ℕ
  size : ℕ
deriving DecidableEq, Repr

/-- The address behind the region. -/
def Region.stop (r : Region) : ℕ := r.start + r.size

/-- The regions do not touch, and do not begin at one place. -/
def Apart (r s : Region) : Prop :=
  (r.stop ≤ s.start ∨ s.stop ≤ r.start) ∧ r.start ≠ s.start

/-- The first region is a part of the second. -/
structure Within (r s : Region) : Prop where
  start_le : s.start ≤ r.start
  stop_le : r.stop ≤ s.stop

theorem Apart.symm {r s : Region} (h : Apart r s) : Apart s r := ⟨h.1.symm, h.2.symm⟩

/-- Parts of regions that are apart are apart. -/
theorem Apart.parts {r s r' s' : Region} (h : Apart r s) (hr : Within r' r) (hs : Within s' s)
    (hpos : 0 < r'.size) (hpos' : 0 < s'.size) : Apart r' s' := by
  have hr₁ := hr.start_le
  have hr₂ := hr.stop_le
  have hs₁ := hs.start_le
  have hs₂ := hs.stop_le
  have hapart := h.1
  unfold Region.stop at *
  refine ⟨?_, ?_⟩
  · unfold Region.stop
    omega
  · omega

/-! ## Elements in a row -/

/-- The elements of size `es` from number `i` on, `n` of them, behind `start`. -/
def row (start es i n : ℕ) : List ℕ := (List.range' i n).map fun j => start + es * j

theorem row_zero (start es i : ℕ) : row start es i 0 = [] := rfl

theorem row_succ (start es i n : ℕ) :
    row start es i (n + 1) = (start + es * i) :: row start es (i + 1) n := by
  unfold row
  rw [List.range'_succ, List.map_cons]

theorem mem_row {start es i n e : ℕ} :
    e ∈ row start es i n ↔ ∃ j, i ≤ j ∧ j < i + n ∧ e = start + es * j := by
  unfold row
  constructor
  · intro he
    rcases List.mem_map.mp he with ⟨j, hj, rfl⟩
    have hj' := List.mem_range'_1.mp hj
    exact ⟨j, hj'.1, hj'.2, rfl⟩
  · rintro ⟨j, hle, hlt, rfl⟩
    exact List.mem_map.mpr ⟨j, List.mem_range'_1.mpr ⟨hle, hlt⟩, rfl⟩

/-- An element lies behind `start`, and before the end of the row. -/
theorem row_within {start es i n e : ℕ} (he : e ∈ row start es i n) :
    start ≤ e ∧ e + es ≤ start + es * (i + n) := by
  rcases mem_row.mp he with ⟨j, -, hlt, rfl⟩
  have hle : es * (j + 1) ≤ es * (i + n) := Nat.mul_le_mul_left es hlt
  rw [Nat.mul_succ] at hle
  omega

/-- The elements of a row are apart. -/
theorem row_apart {es : ℕ} (hpos : 0 < es) (start i n : ℕ) :
    (row start es i n).Pairwise fun a b => Apart ⟨a, es⟩ ⟨b, es⟩ := by
  unfold row
  rw [List.pairwise_map]
  refine (List.pairwise_lt_range' (s := i) (n := n)).imp ?_
  intro a b hlt
  have hle : es * (a + 1) ≤ es * b := Nat.mul_le_mul_left es hlt
  rw [Nat.mul_succ] at hle
  refine ⟨Or.inl ?_, ?_⟩
  · unfold Region.stop
    show start + es * a + es ≤ start + es * b
    omega
  · show start + es * a ≠ start + es * b
    omega

/-! ## Linked lists -/

/-- From `p` a list is linked through memory, with these nodes. Address 0 ends it. -/
inductive Linked (words : ℕ → ℕ) : ℕ → List ℕ → Prop where
  | nil : Linked words 0 []
  | cons {p : ℕ} {l : List ℕ} : p ≠ 0 → Linked words (words p) l → Linked words p (p :: l)

variable {words words' : ℕ → ℕ} {p : ℕ} {l : List ℕ}

/-- A list stays linked when its nodes stay as they are. -/
theorem Linked.frame (h : Linked words p l) (hsame : ∀ q ∈ l, words' q = words q) :
    Linked words' p l := by
  induction h with
  | nil => exact .nil
  | cons hne _ ih =>
    refine .cons hne ?_
    rw [hsame _ List.mem_cons_self]
    exact ih fun q hq => hsame q (List.mem_cons_of_mem _ hq)

/-- A node that is put in front. -/
theorem Linked.push (h : Linked words p l) {q : ℕ} (hq : q ≠ 0)
    (hsame : ∀ r ∈ l, words' r = words r) (hword : words' q = p) : Linked words' q (q :: l) := by
  refine .cons hq ?_
  rw [hword]
  exact h.frame hsame

theorem Linked.eq_zero (h : Linked words p []) : p = 0 := by
  cases h with
  | nil => rfl

theorem Linked.eq_nil (h : Linked words 0 l) : l = [] := by
  cases h with
  | nil => rfl
  | cons hne => exact absurd rfl hne

/-- A list that does not end here has a first node. -/
theorem Linked.exists_cons (h : Linked words p l) (hp : p ≠ 0) :
    ∃ l', l = p :: l' ∧ Linked words (words p) l' := by
  cases h with
  | nil => exact absurd rfl hp
  | cons _ hrest => exact ⟨_, rfl, hrest⟩

end Regions
