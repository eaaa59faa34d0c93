import Jetlang.Lib.Growth
import Mathlib.Data.List.TakeDrop
import Mathlib.Logic.Function.Basic

/-! # The memo table as an array

`pcc_lr_table_t`: an array of pointers to entries, one for each position, which
grows as far as it is asked to. When the buffer is committed the entries in front
of the position go: the table then begins at the offset `ofs`, and is moved to
the front of its array once half of it is unused. An entry has the head of a left
recursion that grows there, and a map from rules to their answers.

What the array is for is a `Window` onto the positions. The operations on the
array are operations on the window, so how it grows and moves is not seen from
outside. Heads and answers are pointers.
-/

namespace Jetlang.Lr

variable {ρ : Type}

/-! ## Maps from rules to answers -/

section Map

variable [DecidableEq ρ]

/-- `pcc_lr_memo_map__index`. -/
def pccLrMemoMapIndex (map : List (ρ × ℕ)) (rule : ρ) : Option ℕ :=
  map.findIdx? (·.1 == rule)

/-- `pcc_lr_memo_map__put`. -/
def pccLrMemoMapPut (map : List (ρ × ℕ)) (rule : ρ) (answer : ℕ) : List (ρ × ℕ) :=
  match pccLrMemoMapIndex map rule with
  | some i => map.modify i fun memo => (memo.1, answer)
  | none => map ++ [(rule, answer)]

/-- `pcc_lr_memo_map__get`. -/
def pccLrMemoMapGet (map : List (ρ × ℕ)) (rule : ρ) : Option ℕ :=
  match pccLrMemoMapIndex map rule with
  | some i => map[i]?.map Prod.snd
  | none => none

variable {map : List (ρ × ℕ)} {rule r : ρ} {a : ℕ}

/-- A lookup takes the first memo of the rule. -/
theorem pccLrMemoMapGet_cons {memo : ρ × ℕ} :
    pccLrMemoMapGet (memo :: map) rule =
      if memo.1 = rule then some memo.2 else pccLrMemoMapGet map rule := by
  unfold pccLrMemoMapGet pccLrMemoMapIndex
  rw [List.findIdx?_cons]
  by_cases h : memo.1 = rule
  · simp [h]
  · simp only [beq_eq_false_iff_ne.mpr h, if_neg h]
    cases map.findIdx? (·.1 == rule) <;> simp

/-- A memo is overwritten where the rule has one, and else put at the end. -/
theorem pccLrMemoMapPut_cons {memo : ρ × ℕ} :
    pccLrMemoMapPut (memo :: map) rule a =
      if memo.1 = rule then (memo.1, a) :: map else memo :: pccLrMemoMapPut map rule a := by
  unfold pccLrMemoMapPut pccLrMemoMapIndex
  rw [List.findIdx?_cons]
  by_cases h : memo.1 = rule
  · simp [h]
  · simp only [beq_eq_false_iff_ne.mpr h, if_neg h]
    cases map.findIdx? (·.1 == rule) <;> simp

/-- The map has the answer that was put in last. -/
theorem pccLrMemoMapGet_put :
    pccLrMemoMapGet (pccLrMemoMapPut map rule a) r =
      if r = rule then some a else pccLrMemoMapGet map r := by
  induction map with
  | nil =>
    by_cases h : rule = r
    · simp [pccLrMemoMapPut, pccLrMemoMapIndex, pccLrMemoMapGet_cons, h]
    · have h' : r ≠ rule := fun heq => h heq.symm
      simp [pccLrMemoMapPut, pccLrMemoMapIndex, pccLrMemoMapGet_cons, h, h']
  | cons memo map ih =>
    rw [pccLrMemoMapPut_cons, pccLrMemoMapGet_cons]
    by_cases h : memo.1 = rule
    · subst h
      rw [if_pos rfl, pccLrMemoMapGet_cons]
      grind
    · rw [if_neg h, pccLrMemoMapGet_cons, ih]
      grind

end Map

/-! ## The array -/

/-- `pcc_lr_table_entry_t`. The answers and heads that are only kept to be freed
with the entry are lists, which begin at `holdA` and `holdH`. -/
structure LrTableEntry (ρ : Type) where
  head : Option ℕ
  memos : List (ρ × ℕ)
  holdA : Option ℕ
  holdH : Option ℕ

/-- `pcc_lr_table_entry__create`. -/
def pccLrTableEntryCreate : LrTableEntry ρ := ⟨none, [], none, none⟩

/-- `pcc_lr_table_t`: the first `len` pointers of the array, and its room. The
pointers in front of the offset dangle. -/
structure LrTable (ρ : Type) where
  buf : List (Option (LrTableEntry ρ))
  max : ℕ
  ofs : ℕ
  ofs_le : ofs ≤ buf.length

/-- `pcc_lr_table__init`. -/
def pccLrTableInit : LrTable ρ where
  buf := []
  max := 0
  ofs := 0
  ofs_le := Nat.le_refl 0

/-- The offset stays in an array that is cut or filled up behind it. -/
theorem le_length_resized {buf : List (Option (LrTableEntry ρ))} {len ofs : ℕ} (h : ofs ≤ len) :
    ofs ≤ (buf.take len ++ List.replicate (len - buf.length) none).length := by
  rw [List.length_append, List.length_take, List.length_replicate]
  omega

/-- `pcc_lr_table__resize`, to a length behind the offset. -/
def pccLrTableResize (table : LrTable ρ) (len : ℕ) (h : table.ofs ≤ len) : LrTable ρ where
  buf := table.buf.take len ++ List.replicate (len - table.buf.length) none
  max := if table.max < len then Growth.room 64 len 2 table.max else table.max
  ofs := table.ofs
  ofs_le := le_length_resized h

theorem ofs_le_index {table : LrTable ρ} {index : ℕ} (h : table.buf.length ≤ index) :
    table.ofs ≤ index + 1 :=
  Nat.le_succ_of_le (Nat.le_trans table.ofs_le h)

/-- Resize the table so that it has an entry at a place of the array. -/
def LrTable.reach (table : LrTable ρ) (index : ℕ) : LrTable ρ :=
  if h : table.buf.length ≤ index then
    pccLrTableResize table (index + 1) (ofs_le_index h)
  else
    table

theorem LrTable.ofs_le_set (table : LrTable ρ) (index : ℕ) (e : Option (LrTableEntry ρ)) :
    table.ofs ≤ (table.buf.set index e).length := by
  rw [List.length_set]
  exact table.ofs_le

/-- What the functions that write to the table do: find the entry for a position,
or create it, and change it. -/
def LrTable.modify (table : LrTable ρ) (index : ℕ) (f : LrTableEntry ρ → LrTableEntry ρ) :
    LrTable ρ :=
  let reached := table.reach (index + table.ofs)
  { reached with
    buf := reached.buf.set (index + table.ofs)
      (some (f (reached.buf[index + table.ofs]?.join.getD pccLrTableEntryCreate)))
    ofs_le := reached.ofs_le_set _ _ }

/-- The entry for a position, if there is one. -/
def LrTable.entry (table : LrTable ρ) (index : ℕ) : Option (LrTableEntry ρ) :=
  table.buf[index + table.ofs]?.join

/-- `pcc_lr_table__set_head`. -/
def pccLrTableSetHead (table : LrTable ρ) (index : ℕ) (head : Option ℕ) : LrTable ρ :=
  table.modify index fun entry => { entry with head := head }

/-- `pcc_lr_table__hold_head`. What was held before is linked to the head. -/
def pccLrTableHoldHead (table : LrTable ρ) (index : ℕ) (head : ℕ) : LrTable ρ :=
  table.modify index fun entry => { entry with holdH := some head }

/-- `pcc_lr_table__hold_answer`. What was held before is linked to the answer. -/
def pccLrTableHoldAnswer (table : LrTable ρ) (index : ℕ) (answer : ℕ) : LrTable ρ :=
  table.modify index fun entry => { entry with holdA := some answer }

/-- `pcc_lr_table__get_head`. -/
def pccLrTableGetHead (table : LrTable ρ) (index : ℕ) : Option ℕ :=
  match table.entry index with
  | some entry => entry.head
  | none => none

/-- A shift goes to the end at most. -/
theorem add_min_le {ofs len : ℕ} (h : ofs ≤ len) (count : ℕ) :
    ofs + min count (len - ofs) ≤ len := by
  omega

/-- `pcc_lr_table__shift`. -/
def pccLrTableShift (table : LrTable ρ) (count : ℕ) : LrTable ρ :=
  let ofs := table.ofs + min count (table.buf.length - table.ofs)
  if table.max / 2 < ofs then
    ⟨table.buf.drop ofs, table.max, 0, Nat.zero_le _⟩
  else
    ⟨table.buf, table.max, ofs, add_min_le table.ofs_le count⟩

section Answers

variable [DecidableEq ρ]

/-- `pcc_lr_table__set_answer`. -/
def pccLrTableSetAnswer (table : LrTable ρ) (index : ℕ) (rule : ρ) (answer : ℕ) : LrTable ρ :=
  table.modify index fun entry => { entry with memos := pccLrMemoMapPut entry.memos rule answer }

/-- `pcc_lr_table__get_answer`. -/
def pccLrTableGetAnswer (table : LrTable ρ) (index : ℕ) (rule : ρ) : Option ℕ :=
  match table.entry index with
  | some entry => pccLrMemoMapGet entry.memos rule
  | none => none

end Answers

/-! ### Entries -/

section Entries

variable (table : LrTable ρ) (index i : ℕ)

@[simp] theorem reach_ofs : (table.reach index).ofs = table.ofs := by
  unfold LrTable.reach
  split <;> rfl

/-- Reaching for a place adds empty entries at the end. -/
theorem reach_buf :
    (table.reach index).buf =
      table.buf ++ List.replicate (index + 1 - table.buf.length) none := by
  unfold LrTable.reach
  split
  · rename_i h
    unfold pccLrTableResize
    dsimp only
    rw [List.take_of_length_le (by omega)]
  · rename_i h
    have hzero : index + 1 - table.buf.length = 0 := by omega
    rw [hzero, List.replicate_zero, List.append_nil]

/-- So nothing else is found there than before. -/
theorem reach_getElem : (table.reach index).buf[i]?.join = table.buf[i]?.join := by
  rw [reach_buf, List.getElem?_append]
  split
  · rfl
  · rename_i h
    rw [List.getElem?_eq_none (Nat.not_lt.mp h), List.getElem?_replicate]
    split <;> rfl

theorem lt_length_reach : index < (table.reach index).buf.length := by
  rw [reach_buf, List.length_append, List.length_replicate]
  omega

/-- Writing to one entry leaves the others. -/
theorem entry_modify (f : LrTableEntry ρ → LrTableEntry ρ) :
    (table.modify index f).entry i =
      if i = index then some (f ((table.entry index).getD pccLrTableEntryCreate))
      else table.entry i := by
  unfold LrTable.modify LrTable.entry
  dsimp only
  rw [reach_ofs, reach_getElem]
  by_cases h : i = index
  · subst h
    rw [if_pos rfl, List.getElem?_set_self (lt_length_reach _ _)]
    rfl
  · rw [if_neg h, List.getElem?_set_ne (by omega), reach_getElem]

/-- A shift moves the entries, whether the array is moved or not. -/
theorem entry_shift (count : ℕ) :
    (pccLrTableShift table count).entry i = table.entry (i + count) := by
  have hle := table.ofs_le
  have hbuf : table.buf[i + (table.ofs + min count (table.buf.length - table.ofs))]? =
      table.buf[i + count + table.ofs]? := by
    by_cases h : count ≤ table.buf.length - table.ofs
    · rw [Nat.min_eq_left h]
      congr 1
      omega
    · -- all entries go
      rw [List.getElem?_eq_none (by omega), List.getElem?_eq_none (by omega)]
  unfold pccLrTableShift LrTable.entry
  dsimp only
  split
  · rw [List.getElem?_drop, Nat.add_zero, Nat.add_comm _ i, hbuf]
  · exact congrArg Option.join hbuf

end Entries

/-! ### Lookups -/

section Lookups

variable (table : LrTable ρ) (index i : ℕ)

theorem getHead_init : pccLrTableGetHead (pccLrTableInit : LrTable ρ) i = none := rfl

/-- A head is found where it was put. -/
theorem getHead_setHead (head : Option ℕ) :
    pccLrTableGetHead (pccLrTableSetHead table index head) i =
      if i = index then head else pccLrTableGetHead table i := by
  unfold pccLrTableGetHead pccLrTableSetHead
  rw [entry_modify]
  by_cases h : i = index
  · simp only [if_pos h]
  · simp only [if_neg h]

/-- A change that leaves the heads of entries leaves those of the table. -/
theorem getHead_modify {f : LrTableEntry ρ → LrTableEntry ρ} (hf : ∀ e, (f e).head = e.head) :
    pccLrTableGetHead (table.modify index f) i = pccLrTableGetHead table i := by
  unfold pccLrTableGetHead
  rw [entry_modify]
  by_cases h : i = index
  · subst h
    simp only [if_true, hf]
    cases table.entry i <;> rfl
  · simp only [if_neg h]

/-- After a shift by `count` a lookup finds what was `count` places further on. -/
theorem getHead_shift (count : ℕ) :
    pccLrTableGetHead (pccLrTableShift table count) i = pccLrTableGetHead table (i + count) := by
  unfold pccLrTableGetHead
  rw [entry_shift]

variable [DecidableEq ρ] (rule r : ρ)

theorem getAnswer_init : pccLrTableGetAnswer (pccLrTableInit : LrTable ρ) i r = none := rfl

/-- An answer is found for its rule, where it was put. -/
theorem getAnswer_setAnswer (answer : ℕ) :
    pccLrTableGetAnswer (pccLrTableSetAnswer table index rule answer) i r =
      if i = index ∧ r = rule then some answer else pccLrTableGetAnswer table i r := by
  unfold pccLrTableGetAnswer pccLrTableSetAnswer
  rw [entry_modify]
  by_cases h : i = index
  · subst h
    simp only [if_true, pccLrMemoMapGet_put, true_and]
    cases table.entry i <;> rfl
  · simp only [h, false_and, if_false]

theorem getHead_setAnswer (answer : ℕ) :
    pccLrTableGetHead (pccLrTableSetAnswer table index rule answer) i =
      pccLrTableGetHead table i :=
  getHead_modify table index i fun _ => rfl

/-- A change that leaves the answers of entries leaves those of the table. -/
theorem getAnswer_modify {f : LrTableEntry ρ → LrTableEntry ρ}
    (hf : ∀ e, (f e).memos = e.memos) :
    pccLrTableGetAnswer (table.modify index f) i r = pccLrTableGetAnswer table i r := by
  unfold pccLrTableGetAnswer
  rw [entry_modify]
  by_cases h : i = index
  · subst h
    simp only [if_true, hf]
    cases table.entry i <;> rfl
  · simp only [if_neg h]

theorem getAnswer_shift (count : ℕ) :
    pccLrTableGetAnswer (pccLrTableShift table count) i r =
      pccLrTableGetAnswer table (i + count) r := by
  unfold pccLrTableGetAnswer
  rw [entry_shift]

end Lookups

/-! ## The window -/

/-- What the table is for: the heads and the answers for the positions from some
position on. -/
structure Window (ρ : Type) where
  head : ℕ → Option ℕ
  answer : ℕ → ρ → Option ℕ

theorem Window.ext {w v : Window ρ} (hhead : ∀ i, w.head i = v.head i)
    (hanswer : ∀ i r, w.answer i r = v.answer i r) : w = v := by
  cases w
  cases v
  congr 1
  · exact funext hhead
  · exact funext fun i => funext (hanswer i)

/-- An operation on the table. -/
inductive LrTableOp (ρ : Type) where
  | setHead (index : ℕ) (head : Option ℕ)
  | holdHead (index : ℕ) (head : ℕ)
  | setAnswer (index : ℕ) (rule : ρ) (answer : ℕ)
  | holdAnswer (index : ℕ) (answer : ℕ)
  | shift (count : ℕ)

section Window

variable [DecidableEq ρ]

def LrTableOp.onTable (table : LrTable ρ) : LrTableOp ρ → LrTable ρ
  | .setHead index head => pccLrTableSetHead table index head
  | .holdHead index head => pccLrTableHoldHead table index head
  | .setAnswer index rule answer => pccLrTableSetAnswer table index rule answer
  | .holdAnswer index answer => pccLrTableHoldAnswer table index answer
  | .shift count => pccLrTableShift table count

/-- What an operation is on the window. What is held is not seen. -/
def LrTableOp.onWindow (w : Window ρ) : LrTableOp ρ → Window ρ
  | .setHead index head => { w with head := Function.update w.head index head }
  | .holdHead _ _ => w
  | .setAnswer index rule answer =>
      { w with
        answer :=
          Function.update w.answer index (Function.update (w.answer index) rule (some answer)) }
  | .holdAnswer _ _ => w
  | .shift count => ⟨fun i => w.head (i + count), fun i => w.answer (i + count)⟩

/-- The window onto nothing. -/
def Window.empty : Window ρ := ⟨fun _ => none, fun _ _ => none⟩

/-- What is seen of a table. -/
def LrTable.window (table : LrTable ρ) : Window ρ :=
  ⟨pccLrTableGetHead table, pccLrTableGetAnswer table⟩

/-- An operation on the table is the one on its window. -/
theorem window_onTable (table : LrTable ρ) (op : LrTableOp ρ) :
    (op.onTable table).window = op.onWindow table.window := by
  cases op with
  | setHead index head =>
    refine Window.ext (fun i => ?_) (fun i r => ?_)
    · exact (getHead_setHead table index i head).trans (Function.update_apply _ _ _ _).symm
    · exact getAnswer_modify table index i r fun _ => rfl
  -- what an entry holds is no part of the window
  | holdHead index head =>
    exact Window.ext (fun i => getHead_modify table index i fun _ => rfl)
      (fun i r => getAnswer_modify table index i r fun _ => rfl)
  | setAnswer index rule answer =>
    refine Window.ext (fun i => getHead_setAnswer table index i rule answer) (fun i r => ?_)
    refine (getAnswer_setAnswer table index i rule r answer).trans ?_
    show _ = Function.update table.window.answer index
      (Function.update (table.window.answer index) rule (some answer)) i r
    rw [Function.update_apply]
    by_cases h : i = index
    · subst h
      rw [if_pos rfl, Function.update_apply]
      simp only [true_and]
      rfl
    · simp only [h, false_and, if_false]
      rfl
  | holdAnswer index answer =>
    exact Window.ext (fun i => getHead_modify table index i fun _ => rfl)
      (fun i r => getAnswer_modify table index i r fun _ => rfl)
  | shift count =>
    exact Window.ext (fun i => getHead_shift table i count)
      (fun i r => getAnswer_shift table i r count)

/-- **The array is a window.** After any operations a lookup in the table finds
what the window has there. -/
theorem window_run (ops : List (LrTableOp ρ)) :
    (ops.foldl LrTableOp.onTable pccLrTableInit).window =
      ops.foldl LrTableOp.onWindow .empty := by
  have hrun : ∀ table : LrTable ρ, (ops.foldl LrTableOp.onTable table).window =
      ops.foldl LrTableOp.onWindow table.window := by
    induction ops with
    | nil => exact fun _ => rfl
    | cons op ops ih =>
      intro table
      rw [List.foldl_cons, List.foldl_cons, ih, window_onTable]
  exact hrun pccLrTableInit

end Window

/-! ## Room -/

/-- The positions that are written to are less than `W` behind the offset. -/
def LrTableOp.Within (W : ℕ) : LrTableOp ρ → Prop
  | .setHead index _ => index < W
  | .holdHead index _ => index < W
  | .setAnswer index _ _ => index < W
  | .holdAnswer index _ => index < W
  | .shift _ => True

/-- The table fits into its array, which has room for at most `4 * W` entries, of
which at most half are in front of the offset. -/
structure LrTable.Fits (W : ℕ) (table : LrTable ρ) : Prop where
  length_le : table.buf.length ≤ table.max
  max_le : table.max ≤ 4 * W
  ofs_le : 2 * table.ofs ≤ table.max

section Room

variable {W : ℕ} {table : LrTable ρ}

/-- An array that is half unused is long enough, unless it is small. -/
theorem LrTable.Fits.modify {index : ℕ} (h : table.Fits W) (hindex : index < W)
    (hW : 4 * W < 2 ^ 64) (f : LrTableEntry ρ → LrTableEntry ρ) :
    (table.modify index f).Fits W := by
  have hofs := h.ofs_le
  have hmax := h.max_le
  -- the entry is written in place, so only the growth matters
  suffices hreach : (table.reach (index + table.ofs)).Fits W by
    refine ⟨?_, hreach.max_le, hreach.ofs_le⟩
    show List.length (List.set _ _ _) ≤ _
    rw [List.length_set]
    exact hreach.length_le
  unfold LrTable.reach
  split
  · rename_i hlen
    by_cases hgrow : table.max < index + table.ofs + 1
    · -- the array grows, to at most twice what is asked for
      have hle : index + table.ofs + 1 ≤ Growth.room 64 (index + table.ofs + 1) 2 table.max :=
        Growth.le_room (by omega) (by omega)
      have hge : Growth.room 64 (index + table.ofs + 1) 2 table.max ≤
          2 * (index + table.ofs + 1) :=
        Growth.room_le (by omega) (by omega) (by omega)
      refine ⟨?_, ?_, ?_⟩
      · show List.length (_ ++ _) ≤ ite _ _ _
        rw [if_pos hgrow, List.length_append, List.length_take, List.length_replicate]
        omega
      · show ite _ _ _ ≤ _
        rw [if_pos hgrow]
        omega
      · show _ ≤ ite _ _ _
        rw [if_pos hgrow]
        show 2 * table.ofs ≤ _
        omega
    · refine ⟨?_, ?_, ?_⟩
      · show List.length (_ ++ _) ≤ ite _ _ _
        rw [if_neg hgrow, List.length_append, List.length_take, List.length_replicate]
        omega
      · show ite _ _ _ ≤ _
        rw [if_neg hgrow]
        exact hmax
      · show _ ≤ ite _ _ _
        rw [if_neg hgrow]
        exact hofs
  · exact h

/-- A shift moves the entries to the front once more than half of the array is in front
of them. -/
theorem LrTable.Fits.shift (h : table.Fits W) (count : ℕ) :
    (pccLrTableShift table count).Fits W := by
  have hlen := h.length_le
  unfold pccLrTableShift
  dsimp only
  split
  · refine ⟨?_, h.max_le, Nat.zero_le _⟩
    show List.length (List.drop _ _) ≤ table.max
    rw [List.length_drop]
    omega
  · rename_i hhalf
    refine ⟨hlen, h.max_le, ?_⟩
    show 2 * (_ + _) ≤ table.max
    omega

theorem LrTable.Fits.onTable [DecidableEq ρ] (h : table.Fits W) (hW : 4 * W < 2 ^ 64)
    {op : LrTableOp ρ} (hop : op.Within W) : (op.onTable table).Fits W := by
  cases op with
  | setHead index head =>
    exact h.modify hop hW fun entry => { entry with head := head }
  | holdHead index head =>
    exact h.modify hop hW fun entry => { entry with holdH := some head }
  | setAnswer index rule answer =>
    exact h.modify hop hW fun entry =>
      { entry with memos := pccLrMemoMapPut entry.memos rule answer }
  | holdAnswer index answer =>
    exact h.modify hop hW fun entry => { entry with holdA := some answer }
  | shift count => exact h.shift count

end Room

end Jetlang.Lr
