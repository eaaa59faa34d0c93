import Jetlang.Ins.AtoiU

/-! # `_atoi_v`, the unrolled decimal conversion

The characters are addressed from the end of the text, as in the code: `l k` is
`l[k]`, and the text is at the indices from `-d` to `-1`. The run records the
indices it reads in `l` and those it writes in `v`, so that they can be compared
with the bounds of the text and of the table.

`v[i] = l[-i++] - '0'` leaves open whether the index on the left is `i` before
or after the increment.
-/

namespace Jetlang.Ins

/-! ## The code -/

/-- The index `v[i]` means in `v[i] = l[-i++] - '0'`. -/
inductive IndexOrder where
  | beforeIncrement
  | afterIncrement
deriving DecidableEq, Repr

/-- The variables of `_atoi_v`, and the indices read and written so far. -/
structure VState where
  i : ℕ
  v : ℕ → BitVec 32
  reads : List ℤ
  writes : List ℕ

/-- `c - '0'` as an `unsigned int`, for a signed `char`. -/
def digitOf (c : UInt8) : BitVec 32 := c.toBitVec.signExtend 32 - 48

/-- `v[k] = x`. -/
def VState.write (s : VState) (k : ℕ) (x : BitVec 32) : VState :=
  { s with v := Function.update s.v k x, writes := s.writes ++ [k] }

/-- `l[-i]`, read in the state `s`. -/
def VState.read (s : VState) : VState := { s with reads := s.reads ++ [-(s.i : ℤ)] }

/-- The body of the first loop, with the increment: `v[i] = l[-i] - '0'; ++i`. -/
def firstTurn (l : ℤ → UInt8) (s : VState) : VState :=
  let s' := s.read.write s.i (digitOf (l (-s.i)))
  { s' with i := s.i + 1 }

/-- The first loop. It runs while `l - i` is not `f`, that is `d - i` times. -/
def firstLoop (l : ℤ → UInt8) : ℕ → VState → VState
  | 0, s => s
  | n + 1, s => firstLoop l n (firstTurn l s)

/-- `v[i] = l[-i++] - '0'`. -/
def assign (o : IndexOrder) (l : ℤ → UInt8) (s : VState) : VState :=
  let k := match o with
    | .beforeIncrement => s.i
    | .afterIncrement => s.i + 1
  let s' := s.read.write k (digitOf (l (-s.i)))
  { s' with i := s.i + 1 }

/-- The chain of `n` assignments, left as soon as `i == d`. -/
def chain (o : IndexOrder) (l : ℤ → UInt8) (d : ℕ) : ℕ → VState → VState
  | 0, s => s
  | n + 1, s =>
      let s := assign o l s
      if s.i = d then s else chain o l d n s

/-- The `switch`: case `i` falls through the cases up to 9. -/
def zeroFill (s : VState) : VState :=
  if 1 ≤ s.i ∧ s.i ≤ 9 then
    (List.range' s.i (10 - s.i)).foldl (fun s k => s.write k 0) s
  else
    s

/-- The table `T`. -/
def tens : List (BitVec 32) :=
  [1, 10, 100, 1000, 10000, 100000, 1000000, 10000000, 100000000, 1000000000]

/-- The sum of the products with the table. -/
def weighted (v : ℕ → BitVec 32) : BitVec 32 :=
  (tens.zipIdx.map fun t => v t.2 * t.1).foldl (· + ·) 0

/-- What `_atoi_v` did: the number it stored, and the indices used. -/
structure VRun where
  res : BitVec 32
  reads : List ℤ
  writes : List ℕ

/-- The state after the two loops. The table starts with the values `v₀`. -/
def digitsRead (o : IndexOrder) (l : ℤ → UInt8) (d : ℕ) (v₀ : ℕ → BitVec 32) : VState :=
  chain o l d 10 (firstLoop l d ⟨0, v₀, [], []⟩)

/-- `_atoi_v` on a text of `d` characters. -/
def atoiV (o : IndexOrder) (l : ℤ → UInt8) (d : ℕ) (v₀ : ℕ → BitVec 32) : VRun :=
  let s := zeroFill (digitsRead o l d v₀)
  ⟨weighted s.v, s.reads, s.writes⟩

/-! ## What is asked of a text -/

/-- The memory around the end of a text: the text itself from `-d` to `-1`, and
`around` elsewhere. -/
def memory (text : List UInt8) (around : ℤ → UInt8) (k : ℤ) : UInt8 :=
  if -(text.length : ℤ) ≤ k ∧ k < 0 then
    text.getD (k + text.length).toNat 0
  else
    around k

/-- On a text the two conversions agree, and `_atoi_v` stays inside the text
and its table. -/
structure Agrees (o : IndexOrder) (text : List UInt8) (around : ℤ → UInt8)
    (v₀ : ℕ → BitVec 32) : Prop where
  same : (atoiV o (memory text around) text.length v₀).res = (atoiU text 0).2
  inText : ∀ k ∈ (atoiV o (memory text around) text.length v₀).reads,
    -(text.length : ℤ) ≤ k ∧ k < 0
  inTable : ∀ k ∈ (atoiV o (memory text around) text.length v₀).writes, k < 10

/-! ## What is read and written -/

/-- The indices `-i`, `-(i + 1)`, and so on, `n` of them. -/
def downFrom (i n : ℕ) : List ℤ := (List.range' i n).map fun k : ℕ => -(k : ℤ)

theorem downFrom_succ (i n : ℕ) : downFrom i (n + 1) = -(i : ℤ) :: downFrom (i + 1) n := by
  unfold downFrom
  rw [List.range'_succ, List.map_cons]

theorem downFrom_append (i m n : ℕ) : downFrom i m ++ downFrom (i + m) n = downFrom i (m + n) := by
  unfold downFrom
  rw [← List.map_append, List.range'_append_1]

/-- The first loop reads downwards from where it starts. -/
theorem firstLoop_spec (l : ℤ → UInt8) (n : ℕ) (s : VState) :
    (firstLoop l n s).i = s.i + n ∧ (firstLoop l n s).reads = s.reads ++ downFrom s.i n := by
  induction n generalizing s with
  | zero => exact ⟨rfl, (List.append_nil _).symm⟩
  | succ n ih =>
    have hi : (firstTurn l s).i = s.i + 1 := rfl
    have hreads : (firstTurn l s).reads = s.reads ++ [-(s.i : ℤ)] := rfl
    rcases ih (firstTurn l s) with ⟨hi', hreads'⟩
    unfold firstLoop
    constructor
    · rw [hi', hi]
      omega
    · rw [hreads', hi, hreads, downFrom_succ, List.append_assoc]
      rfl

/-- The chain is never left early, as `i` starts at `d` and grows. Its last
assignment is to the index `i + 9` or behind it. -/
theorem chain_spec (o : IndexOrder) (l : ℤ → UInt8) {d : ℕ} (n : ℕ) {s : VState} (hi : d ≤ s.i) :
    (chain o l d n s).i = s.i + n ∧
      (chain o l d n s).reads = s.reads ++ downFrom s.i n ∧
      (0 < n → ∃ k ∈ (chain o l d n s).writes, s.i + n ≤ k + 1) := by
  induction n generalizing s with
  | zero => exact ⟨rfl, (List.append_nil _).symm, fun h => absurd h (Nat.lt_irrefl 0)⟩
  | succ n ih =>
    have hi₁ : (assign o l s).i = s.i + 1 := rfl
    have hreads₁ : (assign o l s).reads = s.reads ++ [-(s.i : ℤ)] := rfl
    -- so the comparison with `d` never ends the chain
    have hstay : (assign o l s).i ≠ d := by omega
    rcases ih (s := assign o l s) (by omega) with ⟨hi', hreads', hwrites'⟩
    unfold chain
    dsimp only
    rw [if_neg hstay]
    refine ⟨by omega, ?_, ?_⟩
    · rw [hreads', hi₁, hreads₁, downFrom_succ, List.append_assoc]
      rfl
    · intro _
      by_cases hn : 0 < n
      · rcases hwrites' hn with ⟨k, hk, hle⟩
        exact ⟨k, hk, by omega⟩
      · -- the last assignment of the chain
        obtain rfl : n = 0 := by omega
        cases o with
        | beforeIncrement => exact ⟨s.i, by simp [chain, assign, VState.write], by omega⟩
        | afterIncrement => exact ⟨s.i + 1, by simp [chain, assign, VState.write], by omega⟩

/-- The two loops leave `i` at `d + 10`, and all they read and write is what the
whole run does: the `switch` has no case for that `i`. -/
theorem digitsRead_spec (o : IndexOrder) (l : ℤ → UInt8) (d : ℕ) (v₀ : ℕ → BitVec 32) :
    (atoiV o l d v₀).reads = downFrom 0 (d + 10) ∧
      ∃ k ∈ (atoiV o l d v₀).writes, d + 9 ≤ k := by
  rcases firstLoop_spec l d ⟨0, v₀, [], []⟩ with ⟨hi, hreads⟩
  rw [Nat.zero_add] at hi
  rcases chain_spec o l 10 (Nat.le_of_eq hi.symm) with ⟨hi', hreads', hwrites'⟩
  -- `i` is at least 10, so the `switch` has no case for it
  have hfill : zeroFill (digitsRead o l d v₀) = digitsRead o l d v₀ := by
    unfold zeroFill digitsRead
    rw [if_neg (by omega)]
  unfold atoiV
  rw [hfill]
  constructor
  · show (digitsRead o l d v₀).reads = _
    unfold digitsRead
    rw [hreads', hreads, hi, List.nil_append, ← downFrom_append, Nat.zero_add]
  · rcases hwrites' (by decide) with ⟨k, hk, hle⟩
    exact ⟨k, hk, by omega⟩

/-- `l[0]` is read first. -/
theorem zero_mem_reads (o : IndexOrder) (l : ℤ → UInt8) (d : ℕ) (v₀ : ℕ → BitVec 32) :
    (0 : ℤ) ∈ (atoiV o l d v₀).reads := by
  rw [(digitsRead_spec o l d v₀).1, downFrom_succ]
  exact List.mem_cons_self

/-- **The conversion never works.** On every text of at least one digit, with
either order and whatever is around the text, `_atoi_v` reads outside the text,
and writes outside its table. -/
theorem not_agrees (o : IndexOrder) (d : Fin 10) (ds : List (Fin 10)) (around : ℤ → UInt8)
    (v₀ : ℕ → BitVec 32) :
    ¬ Agrees o (digitChars (d :: ds)) around v₀ ∧
      (∃ k ∈ (atoiV o (memory (digitChars (d :: ds)) around) (ds.length + 1) v₀).reads, 0 ≤ k) ∧
      ∃ k ∈ (atoiV o (memory (digitChars (d :: ds)) around) (ds.length + 1) v₀).writes,
        10 ≤ k := by
  rcases digitsRead_spec o (memory (digitChars (d :: ds)) around) (ds.length + 1) v₀
    with ⟨-, k, hk, hle⟩
  refine ⟨?_, ⟨0, zero_mem_reads .., le_refl 0⟩, k, hk, by omega⟩
  intro h
  exact absurd (h.inText 0 (zero_mem_reads ..)).2 (lt_irrefl 0)

/-- On `"7"` the character behind the text is read first. -/
theorem agrees_counterexample :
    ¬ ∀ (o : IndexOrder) (ds : List (Fin 10)) (around : ℤ → UInt8) (v₀ : ℕ → BitVec 32),
      ds ≠ [] → digitsValue ds < 2 ^ 31 → Agrees o (digitChars ds) around v₀ := by
  intro hall
  have hseven := hall .beforeIncrement [7] (fun _ => 0) (fun _ => 0) (by decide) (by decide)
  exact absurd (hseven.inText 0 (zero_mem_reads ..)).2 (lt_irrefl 0)

end Jetlang.Ins
