import Jetlang.Cst.Exprs

/-! # Reversing a list

The rule `list` pushes the elements of a call from the last to the first, and
the rule `call` reverses the list with `cst_flip_node`. The upper pointer of its
loop starts at the slot behind the last node, so a slot nothing was written to
is exchanged with the first one.
-/

namespace Jetlang.Cst

open Mem

variable {ν : Type}

/-! ## The code -/

/-- The loop of `cst_flip_node`, with the slots it reads. There is no result
when one of them is outside the block. -/
def flipLoop (vec : Block 8 ν) (lo hi : ℕ) : Option (Block 8 ν × List ℕ) :=
  if lo < hi then
    match vec.swap lo hi with
    | some vec' =>
        match flipLoop vec' (lo + 1) (hi - 1) with
        | some (vec'', reads) => some (vec'', lo :: hi :: reads)
        | none => none
    | none => none
  else
    some (vec, [])
termination_by hi - lo

/-- `cst_flip_node`. -/
def cstFlipNode (expr : CstExpr ν) : Option (CstExpr ν × List ℕ) :=
  match flipLoop expr.vec 0 expr.len with
  | some (vec, reads) => some (⟨expr.len, vec⟩, reads)
  | none => none

/-- The actions of the rule `list`, for the elements `e :: es`. -/
def listRule (e : ν) : List ν → Option (CstExpr ν)
  | [] => cstPushNode cstMakeExpr e
  | e' :: es =>
      match listRule e' es with
      | some l => cstPushNode l e
      | none => none

/-- The action of the rule `call`. -/
def callRule (e : ν) (es : List ν) : Option (CstExpr ν × List ℕ) :=
  match listRule e es with
  | some l => cstFlipNode l
  | none => none

/-! ## What is asked of it -/

/-- A list made of the items `xs` is reversed without a look at any slot behind
them, and a second time gives the list back. -/
def FlipsBack (xs : List ν) : Prop :=
  ∃ expr, runOps cstMakeExpr (xs.map .push) = some expr ∧
    ∃ expr' reads, cstFlipNode expr = some (expr', reads) ∧ expr'.Reads xs.reverse ∧
      (∀ i ∈ reads, i < xs.length) ∧
    ∃ expr'' reads', cstFlipNode expr' = some (expr'', reads') ∧ expr''.Reads xs

/-- The rule `call` gives the elements in source order. -/
def InSourceOrder (e : ν) (es : List ν) : Prop :=
  ∃ expr reads, callRule e es = some (expr, reads) ∧ expr.Reads (e :: es)

/-! ## What it does -/

/-- The loop mirrors the slots from `lo` to `hi`, as far as it stays inside the
block. The induction is on the distance of the two pointers. -/
theorem reverseBetween_of_flipLoop {vec vec' : Block 8 ν} {lo hi : ℕ} {reads : List ℕ}
    (h : flipLoop vec lo hi = some (vec', reads)) : vec.reverseBetween lo hi = some vec' := by
  induction hd : hi - lo using Nat.strongRecOn generalizing vec lo hi reads with
  | ind d ih =>
    rw [flipLoop] at h
    rw [Block.reverseBetween]
    split at h
    · rename_i hlt
      rw [if_pos hlt]
      split at h
      · rename_i vec₁ hswap
        rw [hswap]
        split at h
        · rename_i vec₂ reads₁ hloop
          cases h
          exact ih (hi - 1 - (lo + 1)) (by omega) hloop rfl
        · cases h
      · cases h
    · rename_i hge
      rw [if_neg hge]
      cases h
      rfl

/-- On a list that is not empty the slot behind the last node is read. -/
theorem len_mem_reads {expr expr' : CstExpr ν} {reads : List ℕ} (hlen : 0 < expr.len)
    (h : cstFlipNode expr = some (expr', reads)) : expr.len ∈ reads := by
  unfold cstFlipNode at h
  split at h
  · rename_i vec reads₁ hloop
    cases h
    rw [flipLoop, if_pos hlen] at hloop
    split at hloop
    · split at hloop
      · cases hloop
        exact List.mem_cons_of_mem _ List.mem_cons_self
      · cases hloop
    · cases hloop
  · cases h

/-- Nothing was written to the slots from `n` on. -/
def Blank (vec : Block 8 ν) (n : ℕ) : Prop := ∀ k x, n ≤ k → vec.slots[k]? ≠ some (some x)

theorem blank_make : Blank (cstMakeExpr : CstExpr ν).vec 0 := by
  intro k x _ hk
  have hmem := List.mem_of_getElem? hk
  have hnone : some x = none := List.eq_of_mem_replicate hmem
  cases hnone

theorem blank_realloc {vec : Block 8 ν} {n : ℕ} (h : Blank vec n) (size : ℕ) :
    Blank (vec.realloc size) n := by
  intro k x hk hslot
  simp only [Block.realloc, List.getElem?_take, List.getElem?_append] at hslot
  split at hslot
  · split at hslot
    · exact h k x hk hslot
    · have hnone : some x = none := List.eq_of_mem_replicate (List.mem_of_getElem? hslot)
      cases hnone
  · cases hslot

/-- A push writes to one slot, and counts it. -/
theorem cstPushNode_blank {expr expr' : CstExpr ν} {item : ν} (h : Blank expr.vec expr.len)
    (hpush : cstPushNode expr item = some expr') :
    expr'.len = expr.len + 1 ∧ Blank expr'.vec expr'.len := by
  have hgrow : ∀ expr₁, expr.grow = some expr₁ →
      expr₁.len = expr.len ∧ Blank expr₁.vec expr.len := by
    intro expr₁ hgrow
    unfold CstExpr.grow cstHintSize at hgrow
    simp only at hgrow
    split at hgrow
    · split at hgrow
      · cases hgrow
        exact ⟨rfl, blank_realloc h _⟩
      · cases hgrow
    · cases hgrow
      exact ⟨rfl, h⟩
  unfold cstPushNode at hpush
  split at hpush
  · rename_i expr₁ hexpr₁
    rcases hgrow expr₁ hexpr₁ with ⟨hlen, hblank⟩
    split at hpush
    · rename_i vec hwrite
      cases hpush
      refine ⟨congrArg (· + 1) hlen, ?_⟩
      intro k x hk hslot
      unfold Block.write at hwrite
      split at hwrite
      · cases hwrite
        simp only at hk
        rw [List.getElem?_set_ne (by omega)] at hslot
        exact hblank k x (by omega) hslot
      · cases hwrite
    · cases hpush
  · cases hpush

/-- The first slot of a flipped list is the one that was behind its last
node. -/
theorem not_reads_of_flip {expr expr' : CstExpr ν} {reads : List ℕ} (hlen : 0 < expr.len)
    (hblank : Blank expr.vec expr.len) (h : cstFlipNode expr = some (expr', reads)) (y : ν)
    (ys : List ν) : ¬ expr'.Reads (y :: ys) := by
  intro hreads
  unfold cstFlipNode at h
  split at h
  · rename_i vec reads₁ hloop
    cases h
    have hreverse := reverseBetween_of_flipLoop hloop
    by_cases hroom : expr.len < expr.vec.room
    · rcases Block.reverseBetween_spec expr.vec 0 expr.len hroom with ⟨vec', hvec', -, hslots⟩
      rw [hvec'] at hreverse
      cases hreverse
      have hfirst := hreads.holds 0 (Nat.succ_pos _)
      rw [hslots, if_pos ⟨Nat.le_refl _, Nat.zero_le _⟩, Nat.zero_add, Nat.sub_zero] at hfirst
      exact hblank expr.len y (Nat.le_refl _) hfirst
    · rw [Block.reverseBetween_eq_none hlen (by omega)] at hreverse
      cases hreverse
  · cases h

/-- The list of the rule `list` has a slot for each element. -/
theorem listRule_blank {e : ν} {es : List ν} {expr : CstExpr ν} (h : listRule e es = some expr) :
    expr.len = es.length + 1 ∧ Blank expr.vec expr.len := by
  induction es generalizing e expr with
  | nil => exact cstPushNode_blank blank_make h
  | cons e' es ih =>
    unfold listRule at h
    split at h
    · rename_i l hl
      rcases ih hl with ⟨hlen, hblank⟩
      rcases cstPushNode_blank hblank h with ⟨hlen', hblank'⟩
      refine ⟨?_, hblank'⟩
      rw [hlen', hlen, List.length_cons]
    · cases h

theorem not_inSourceOrder (e : ν) (es : List ν) : ¬ InSourceOrder e es := by
  rintro ⟨expr, reads, hcall, hreads⟩
  unfold callRule at hcall
  split at hcall
  · rename_i l hl
    rcases listRule_blank hl with ⟨hlen, hblank⟩
    exact not_reads_of_flip (by omega) hblank hcall e es hreads
  · cases hcall

theorem not_flipsBack {xs : List ν} (hne : xs ≠ []) : ¬ FlipsBack xs := by
  rintro ⟨expr, hrun, expr', reads, hflip, hreads, hinside, -⟩
  have hlen : expr'.len = expr.len := by
    unfold cstFlipNode at hflip
    split at hflip
    · cases hflip
      rfl
    · cases hflip
  have hxs := hreads.len_eq
  rw [List.length_reverse, hlen] at hxs
  have hpos : 0 < xs.length := List.length_pos_iff.mpr hne
  have hmem := hinside _ (len_mem_reads (by omega) hflip)
  omega

theorem flipsBack_nil : FlipsBack ([] : List ν) := by
  have hloop : flipLoop (cstMakeExpr : CstExpr ν).vec 0 0 = some (cstMakeExpr.vec, []) := by
    rw [flipLoop, if_neg (Nat.lt_irrefl 0)]
  have hflip : cstFlipNode (cstMakeExpr : CstExpr ν) = some (cstMakeExpr, []) := by
    unfold cstFlipNode
    rw [show (cstMakeExpr : CstExpr ν).len = 0 from rfl, hloop]
    rfl
  refine ⟨cstMakeExpr, rfl, cstMakeExpr, [], hflip, reads_make, ?_, cstMakeExpr, [], hflip,
    reads_make⟩
  intro i hi
  cases hi

/-- **When a list comes out reversed.** Only if it is empty; and no call has its
elements in source order. -/
theorem flipsBack_iff (xs : List ν) :
    (FlipsBack xs ↔ xs = []) ∧ ∀ (e : ν) (es : List ν), ¬ InSourceOrder e es := by
  refine ⟨⟨?_, ?_⟩, not_inSourceOrder⟩
  · intro h
    by_contra hne
    exact not_flipsBack hne h
  · rintro rfl
    exact flipsBack_nil

/-- A list of one node exchanges it with the slot behind it. -/
theorem flipsBack_counterexample : ¬ FlipsBack ['a'] := not_flipsBack (List.cons_ne_nil _ _)

end Jetlang.Cst
