import Mathlib.Algebra.Order.Group.Unbundled.Basic
import Jetlang.Mem.Block

/-! # The lists of `cst.c`

A list is one block: an 8-byte length followed by 8-byte nodes. It keeps no
capacity. `cst_push_node` takes a length of one less than a multiple of 8 to be
a full block, and any other length to leave room, which is true of the blocks
it asks for itself. A block of `cst_hint_size` may be full earlier.
-/

namespace Jetlang.Cst

open Mem

variable {ν : Type}

/-! ## The code -/

/-- `_cst_edgelist_t`: the length, and the block of the nodes behind it. -/
structure CstExpr (ν : Type) where
  len : ℕ
  vec : Block 8 ν

/-- `sizeof(cst_expr_t)`, which is the size of the length. -/
def sizeofExpr : ℕ := 8

/-- `sizeof(cst_node_t)`. -/
def sizeofNode : ℕ := 8

/-- `cst_make_expr`. -/
def cstMakeExpr : CstExpr ν := ⟨0, Block.malloc (64 - sizeofExpr)⟩

/-- The size `cst_hint_size` asks for, in `size_t`. -/
def hintBytes (len : ℕ) : ℕ := (sizeofExpr + len * sizeofNode) % 2 ^ 64

/-- `cst_hint_size`. There is no result when the block asked for is too small
for the length itself. -/
def cstHintSize (expr : CstExpr ν) (len : ℕ) : Option (CstExpr ν) :=
  let size := hintBytes len
  if sizeofExpr ≤ size then
    some ⟨expr.len, expr.vec.realloc (size - sizeofExpr)⟩
  else
    none

/-- The first branch of `cst_push_node`. -/
def CstExpr.grow (expr : CstExpr ν) : Option (CstExpr ν) :=
  if (expr.len + 1) % 8 = 0 then
    cstHintSize expr (expr.len + 8)
  else
    some expr

/-- `cst_push_node`. There is no result when the item is written outside the
block. -/
def cstPushNode (expr : CstExpr ν) (item : ν) : Option (CstExpr ν) :=
  match expr.grow with
  | some expr =>
      match expr.vec.write expr.len item with
      | some vec => some ⟨expr.len + 1, vec⟩
      | none => none
  | none => none

/-! ## Runs -/

/-- The calls on a list. -/
inductive Op (ν : Type) where
  | push (item : ν)
  | hint (len : ℕ)
deriving DecidableEq, Repr

/-- One call. -/
def Op.run (expr : CstExpr ν) : Op ν → Option (CstExpr ν)
  | .push item => cstPushNode expr item
  | .hint len => cstHintSize expr len

/-- A sequence of calls, each on the list the last one returned. -/
def runOps (expr : CstExpr ν) : List (Op ν) → Option (CstExpr ν)
  | [] => some expr
  | op :: ops =>
      match op.run expr with
      | some expr' => runOps expr' ops
      | none => none

/-- The items a call pushes. -/
def Op.items : Op ν → List ν
  | .push item => [item]
  | .hint _ => []

/-- The items pushed by some calls, in order. -/
def pushed (ops : List (Op ν)) : List ν := ops.flatMap Op.items

/-- The list has the items `xs`: its first slots hold them. -/
structure CstExpr.Reads (expr : CstExpr ν) (xs : List ν) : Prop where
  len_eq : expr.len = xs.length
  holds : expr.vec.Holds xs

/-- No hint is below the length of the list at that point. -/
def Legal (ops : List (Op ν)) : Prop :=
  ∀ before n after, ops = before ++ .hint n :: after → (pushed before).length ≤ n

/-- From a list of the items `xs` on, every call succeeds, so that no push
leaves the block, and after each of them the list has exactly the items pushed
so far. -/
def StaysInsideFrom (expr : CstExpr ν) (xs : List ν) (ops : List (Op ν)) : Prop :=
  ∀ before after, ops = before ++ after →
    ∃ expr', runOps expr before = some expr' ∧ expr'.Reads (xs ++ pushed before)

/-- The same of a new list. -/
def StaysInside (ops : List (Op ν)) : Prop := StaysInsideFrom cstMakeExpr [] ops

/-! ## When the hints are large enough -/

/-- The items pushed before the next hint. -/
def untilHint : List (Op ν) → ℕ
  | .push _ :: ops => untilHint ops + 1
  | _ => 0

/-- The length, from `len` on, at which a push asks for a new block. -/
def nextGrow (len : ℕ) : ℕ := len + (7 - len % 8)

/-- The length a block must have room for when the calls `ops` follow on a list
of `len` items: what is pushed until the block is replaced. -/
def need (len : ℕ) (ops : List (Op ν)) : ℕ := min (len + untilHint ops) (nextGrow len)

/-- The longest list: the size asked for by the push behind it is `2^64`. -/
def maxLen : ℕ := 2 ^ 61 - 9

/-- On a list of `len` items every hint asks for a block that has room until it
is replaced. -/
def Generous (len : ℕ) (ops : List (Op ν)) : Prop :=
  ∀ before n after, ops = before ++ .hint n :: after →
    sizeofExpr + need (len + (pushed before).length) after * sizeofNode ≤ hintBytes n

/-! ## One call -/

/-- The nodes a block of `hintBytes` has room for. -/
theorem room_realloc (vec : Block 8 ν) (size : ℕ) :
    (vec.realloc (size - sizeofExpr)).room = size / 8 - 1 := by
  show (size - 8) / 8 = size / 8 - 1
  omega

/-- A hint for at least the items of the list keeps them. -/
theorem cstHintSize_reads {expr : CstExpr ν} {xs : List ν} (h : expr.Reads xs) {n : ℕ}
    (hn : sizeofExpr + xs.length * sizeofNode ≤ hintBytes n) :
    ∃ expr', cstHintSize expr n = some expr' ∧ expr'.Reads xs ∧
      expr'.vec.room = hintBytes n / 8 - 1 := by
  have hsize : sizeofExpr ≤ hintBytes n := by omega
  refine ⟨_, if_pos hsize, ⟨h.len_eq, ?_⟩, room_realloc _ _⟩
  refine Block.realloc_holds h.holds ?_
  unfold sizeofExpr sizeofNode at *
  omega

/-- A hint for fewer loses an item, or the length. -/
theorem hintBytes_of_reads {expr expr' : CstExpr ν} {xs : List ν} {n : ℕ}
    (hrun : cstHintSize expr n = some expr') (h : expr'.Reads xs) :
    sizeofExpr + xs.length * sizeofNode ≤ hintBytes n ∧
      expr'.vec.room = hintBytes n / 8 - 1 := by
  unfold cstHintSize at hrun
  simp only at hrun
  split at hrun
  · rename_i hsize
    cases hrun
    have hroom := Block.holds_length_le h.holds
    rw [room_realloc] at hroom ⊢
    refine ⟨?_, rfl⟩
    unfold sizeofExpr sizeofNode at *
    omega
  · cases hrun

/-- The size a push asks for does not wrap, up to the longest list. -/
theorem hintBytes_push {len : ℕ} (hlen : len < maxLen) : hintBytes (len + 8) = (len + 9) * 8 := by
  unfold hintBytes sizeofExpr sizeofNode
  unfold maxLen at hlen
  rw [Nat.mod_eq_of_lt (by omega)]
  omega

/-- A push appends its item, if the length calls for a new block or the present
one has room. -/
theorem cstPushNode_reads {expr : CstExpr ν} {xs : List ν} (h : expr.Reads xs) (item : ν)
    (hmax : xs.length < maxLen) (hroom : xs.length % 8 = 7 ∨ xs.length < expr.vec.room) :
    ∃ expr', cstPushNode expr item = some expr' ∧ expr'.Reads (xs ++ [item]) ∧
      expr'.vec.room = if xs.length % 8 = 7 then xs.length + 8 else expr.vec.room := by
  have hlen := h.len_eq
  -- the block that is written to
  have hgrow : ∃ expr₁, expr.grow = some expr₁ ∧ expr₁.Reads xs ∧
      expr₁.vec.room = if xs.length % 8 = 7 then xs.length + 8 else expr.vec.room := by
    unfold CstExpr.grow
    rw [hlen]
    by_cases hfull : xs.length % 8 = 7
    · have hbytes := hintBytes_push hmax
      rcases cstHintSize_reads h (n := xs.length + 8) (by
        rw [hbytes]
        unfold sizeofExpr sizeofNode
        omega) with ⟨expr₁, hrun, hreads, hroom₁⟩
      refine ⟨expr₁, ?_, hreads, ?_⟩
      · rw [if_pos (by omega)]
        exact hrun
      · rw [if_pos hfull, hroom₁, hbytes]
        omega
    · exact ⟨expr, if_neg (by omega), h, (if_neg hfull).symm⟩
  rcases hgrow with ⟨expr₁, hgrow, hreads, hroom₁⟩
  have hroom₂ : xs.length < expr₁.vec.room := by
    rw [hroom₁]
    split <;> omega
  rcases Block.write_holds item hreads.holds hroom₂ with ⟨vec, hwrite, hsize, hholds⟩
  refine ⟨⟨expr₁.len + 1, vec⟩, ?_, ⟨?_, hholds⟩, ?_⟩
  · unfold cstPushNode
    rw [hgrow]
    simp only [hreads.len_eq, hwrite]
  · rw [List.length_append, List.length_singleton]
    exact congrArg (· + 1) hreads.len_eq
  · rw [← hroom₁]
    show vec.size / 8 = expr₁.vec.size / 8
    rw [hsize]

/-- A push on a full block is refused, unless the length calls for a new
one. -/
theorem cstPushNode_full {expr : CstExpr ν} {xs : List ν} (h : expr.Reads xs) (item : ν)
    (hlen : xs.length % 8 ≠ 7) (hroom : expr.vec.room ≤ xs.length) :
    cstPushNode expr item = none := by
  have hgrow : expr.grow = some expr := by
    unfold CstExpr.grow
    rw [h.len_eq, if_neg (by omega)]
  unfold cstPushNode
  rw [hgrow]
  simp only [h.len_eq, Block.write_eq_none item hroom]

/-- The push behind the longest list is refused. -/
theorem cstPushNode_max {expr : CstExpr ν} {xs : List ν} (h : expr.Reads xs) (item : ν)
    (hmax : xs.length = maxLen) : cstPushNode expr item = none := by
  have hgrow : expr.grow = none := by
    unfold CstExpr.grow cstHintSize
    rw [h.len_eq, hmax, if_pos (by decide)]
    exact if_neg (by decide)
  unfold cstPushNode
  rw [hgrow]

/-! ## All calls -/

theorem pushed_cons (op : Op ν) (ops : List (Op ν)) : pushed (op :: ops) = op.items ++ pushed ops :=
  rfl

theorem staysInsideFrom_nil {expr : CstExpr ν} {xs : List ν} (h : expr.Reads xs) :
    StaysInsideFrom expr xs [] := by
  intro before after hsplit
  obtain ⟨rfl, -⟩ := List.append_eq_nil_iff.mp hsplit.symm
  refine ⟨expr, rfl, ?_⟩
  rw [pushed, List.flatMap_nil, List.append_nil]
  exact h

theorem StaysInsideFrom.reads {expr : CstExpr ν} {xs : List ν} {ops : List (Op ν)}
    (h : StaysInsideFrom expr xs ops) : expr.Reads xs := by
  rcases h [] ops rfl with ⟨expr', hrun, hreads⟩
  cases hrun
  rw [pushed, List.flatMap_nil, List.append_nil] at hreads
  exact hreads

/-- The calls stay inside the block if the first does and, on the list it
leaves, the others. -/
theorem staysInsideFrom_cons {expr : CstExpr ν} {xs : List ν} (h : expr.Reads xs) (op : Op ν)
    (ops : List (Op ν)) :
    StaysInsideFrom expr xs (op :: ops) ↔
      ∃ expr', op.run expr = some expr' ∧ StaysInsideFrom expr' (xs ++ op.items) ops := by
  constructor
  · intro hall
    rcases hall [op] ops rfl with ⟨expr', hrun, -⟩
    have hstep : op.run expr = some expr' := by
      unfold runOps at hrun
      split at hrun
      · rename_i expr₁ hop
        rw [hop]
        exact hrun
      · cases hrun
    refine ⟨expr', hstep, ?_⟩
    intro before after hsplit
    rcases hall (op :: before) after (by rw [hsplit, List.cons_append]) with ⟨expr₂, hrun₂, hreads⟩
    rw [runOps, hstep] at hrun₂
    rw [pushed_cons, ← List.append_assoc] at hreads
    exact ⟨expr₂, hrun₂, hreads⟩
  · rintro ⟨expr', hstep, hall⟩ before after hsplit
    rcases List.append_eq_cons_iff.mp hsplit.symm with ⟨rfl, -⟩ | ⟨before, rfl, hsplit'⟩
    · refine ⟨expr, rfl, ?_⟩
      rw [pushed, List.flatMap_nil, List.append_nil]
      exact h
    · rcases hall before after hsplit' with ⟨expr₂, hrun₂, hreads⟩
      refine ⟨expr₂, ?_, ?_⟩
      · rw [runOps, hstep]
        exact hrun₂
      · rw [pushed_cons, ← List.append_assoc]
        exact hreads

theorem generous_nil (len : ℕ) : Generous len ([] : List (Op ν)) := by
  intro before n after hsplit
  cases before <;> cases hsplit

theorem generous_push (len : ℕ) (item : ν) (ops : List (Op ν)) :
    Generous len (.push item :: ops) ↔ Generous (len + 1) ops := by
  have hlen : ∀ before : List (Op ν), len + (pushed (.push item :: before)).length =
      len + 1 + (pushed before).length := by
    intro before
    rw [pushed_cons, List.length_append]
    exact (Nat.add_assoc _ _ _).symm
  constructor
  · intro hall before n after hsplit
    rw [← hlen]
    exact hall (.push item :: before) n after (by rw [hsplit, List.cons_append])
  · intro hall before n after hsplit
    rcases List.append_eq_cons_iff.mp hsplit.symm with ⟨rfl, hhead⟩ | ⟨before, rfl, hsplit'⟩
    · cases hhead
    · rw [hlen]
      exact hall before n after hsplit'

theorem generous_hint (len n : ℕ) (ops : List (Op ν)) :
    Generous len (.hint n :: ops) ↔
      sizeofExpr + need len ops * sizeofNode ≤ hintBytes n ∧ Generous len ops := by
  constructor
  · intro hall
    refine ⟨hall [] n ops rfl, ?_⟩
    intro before m after hsplit
    exact hall (.hint n :: before) m after (by rw [hsplit, List.cons_append])
  · rintro ⟨hn, hall⟩ before m after hsplit
    rcases List.append_eq_cons_iff.mp hsplit.symm with ⟨rfl, hhead⟩ | ⟨before, rfl, hsplit'⟩
    · cases hhead
      exact hn
    · exact hall before m after hsplit'

/-! ### What a block needs -/

theorem le_need (len : ℕ) (ops : List (Op ν)) : len ≤ need len ops := by
  unfold need nextGrow
  omega

theorem need_nil (len : ℕ) : need len ([] : List (Op ν)) = len :=
  Nat.min_eq_left (Nat.le_add_right _ _)

theorem need_hint (len n : ℕ) (ops : List (Op ν)) : need len (.hint n :: ops) = len :=
  Nat.min_eq_left (Nat.le_add_right _ _)

/-- A block that is about to be replaced needs no more room. -/
theorem need_of_full {len : ℕ} (hfull : len % 8 = 7) (ops : List (Op ν)) : need len ops = len := by
  unfold need nextGrow
  omega

/-- The block that replaces it has enough for the pushes up to the next one. -/
theorem need_le_grown {len : ℕ} (hfull : len % 8 = 7) (ops : List (Op ν)) :
    need (len + 1) ops ≤ len + 8 := by
  unfold need nextGrow
  omega

/-- Any other block is needed for the push, and for what follows it. -/
theorem need_push {len : ℕ} (hnot : len % 8 ≠ 7) (item : ν) (ops : List (Op ν)) :
    need len (.push item :: ops) = need (len + 1) ops := by
  have hcount : untilHint (.push item :: ops) = untilHint ops + 1 := rfl
  unfold need nextGrow
  rw [hcount]
  omega

/-! ### The condition for all calls -/

/-- From a list on: the present block must have room until it is replaced, and
so must the blocks of the hints. The induction is on the calls. -/
theorem staysInsideFrom_iff {expr : CstExpr ν} {xs : List ν} (h : expr.Reads xs)
    (hmax : xs.length ≤ maxLen) (ops : List (Op ν)) :
    StaysInsideFrom expr xs ops ↔ need xs.length ops ≤ expr.vec.room ∧
      xs.length + (pushed ops).length ≤ maxLen ∧ Generous xs.length ops := by
  have hroom := Block.holds_length_le h.holds
  induction ops generalizing expr xs with
  | nil =>
    rw [need_nil]
    exact ⟨fun _ => ⟨hroom, hmax, generous_nil _⟩, fun _ => staysInsideFrom_nil h⟩
  | cons op ops ih =>
    rw [staysInsideFrom_cons h]
    cases op with
    | push item =>
      have hcount : (xs ++ [item]).length = xs.length + 1 := by simp
      have htotal : xs.length + (pushed (.push item :: ops)).length =
          xs.length + 1 + (pushed ops).length := by
        rw [pushed_cons, List.length_append]
        exact (Nat.add_assoc _ _ _).symm
      rw [generous_push, htotal]
      -- the longest list takes no item
      by_cases hlast : xs.length = maxLen
      · constructor
        · rintro ⟨expr', hrun, -⟩
          rw [Op.run, cstPushNode_max h item hlast] at hrun
          cases hrun
        · rintro ⟨-, hle, -⟩
          omega
      · by_cases hfull : xs.length % 8 = 7
        · -- the push replaces the block
          rcases cstPushNode_reads h item (by omega) (Or.inl hfull)
            with ⟨expr', hrun, hreads, hroom'⟩
          rw [if_pos hfull] at hroom'
          have hstep := ih hreads (by omega) (Block.holds_length_le hreads.holds)
          have hgrown := need_le_grown hfull ops
          rw [hcount, hroom', and_iff_right hgrown] at hstep
          rw [need_of_full hfull, and_iff_right hroom, Op.run, hrun]
          simp only [Option.some.injEq, exists_eq_left', Op.items]
          exact hstep
        · rw [need_push hfull]
          by_cases hfits : xs.length < expr.vec.room
          · rcases cstPushNode_reads h item (by omega) (Or.inr hfits)
              with ⟨expr', hrun, hreads, hroom'⟩
            rw [if_neg hfull] at hroom'
            have hstep := ih hreads (by omega) (Block.holds_length_le hreads.holds)
            rw [hcount, hroom'] at hstep
            rw [Op.run, hrun]
            simp only [Option.some.injEq, exists_eq_left', Op.items]
            exact hstep
          · -- the push would write behind the block
            have hneed := le_need (xs.length + 1) ops
            constructor
            · rintro ⟨expr', hrun, -⟩
              rw [Op.run, cstPushNode_full h item hfull (by omega)] at hrun
              cases hrun
            · rintro ⟨hle, -⟩
              omega
    | hint n =>
      have hlen := le_need xs.length ops
      rw [generous_hint, need_hint, and_iff_right hroom, pushed_cons]
      show (∃ expr', cstHintSize expr n = some expr' ∧ StaysInsideFrom expr' (xs ++ []) ops) ↔
        xs.length + (pushed ops).length ≤ maxLen ∧ _
      rw [List.append_nil]
      constructor
      · rintro ⟨expr', hrun, hstays⟩
        have hreads := hstays.reads
        rcases hintBytes_of_reads hrun hreads with ⟨hbytes, hroom'⟩
        rcases (ih hreads hmax (Block.holds_length_le hreads.holds)).mp hstays
          with ⟨hle, htotal, hrest⟩
        refine ⟨htotal, ?_, hrest⟩
        rw [hroom'] at hle
        unfold sizeofExpr sizeofNode at *
        omega
      · rintro ⟨htotal, hbytes, hrest⟩
        have hkeep : sizeofExpr + xs.length * sizeofNode ≤ hintBytes n := by
          unfold sizeofExpr sizeofNode at *
          omega
        rcases cstHintSize_reads h hkeep with ⟨expr', hrun, hreads, hroom'⟩
        refine ⟨expr', hrun, ?_⟩
        refine (ih hreads hmax (Block.holds_length_le hreads.holds)).mpr ⟨?_, htotal, hrest⟩
        rw [hroom']
        unfold sizeofExpr sizeofNode at *
        omega

theorem reads_make : (cstMakeExpr : CstExpr ν).Reads [] := ⟨rfl, Block.holds_nil _⟩

/-- **When a list stays inside its block.** Exactly if it stays below `2^61 - 8`
items and every hint asks for enough room until the next hint, or until a push
asks for a new block. -/
theorem staysInside_iff (ops : List (Op ν)) :
    StaysInside ops ↔ (pushed ops).length ≤ maxLen ∧ Generous 0 ops := by
  have hroom : (cstMakeExpr : CstExpr ν).vec.room = 7 := by
    show (64 - 8) / 8 = 7
    rfl
  have hfirst : need 0 ops ≤ (cstMakeExpr : CstExpr ν).vec.room := by
    rw [hroom]
    exact Nat.min_le_right _ _
  have h := staysInsideFrom_iff reads_make (Nat.zero_le _) ops
  rw [List.length_nil, Nat.zero_add, and_iff_right hfirst] at h
  exact h

/-- A hint for two items, on an empty list, is not below its length, and the
third push is outside the block. -/
theorem staysInside_counterexample :
    Legal [.hint 2, .push 'a', .push 'b', .push 'c'] ∧
      ¬ StaysInside [.hint 2, .push 'a', .push 'b', .push 'c'] := by
  constructor
  · intro before n after hsplit
    match before, hsplit with
    | [], hsplit =>
      cases hsplit
      exact Nat.zero_le _
    | [_], hsplit => cases hsplit
    | [_, _], hsplit => cases hsplit
    | [_, _, _], hsplit => cases hsplit
    | _ :: _ :: _ :: _ :: before, hsplit => cases before <;> cases hsplit
  · intro hstays
    rcases hstays _ [] (List.append_nil _).symm with ⟨expr, hrun, -⟩
    cases hrun

end Jetlang.Cst
