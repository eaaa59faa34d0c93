import Jetlang.Lib.Chains
import Jetlang.Lr.Invariant
import Jetlang.Lr.Safety
import Mathlib.Data.List.Flatten
import Mathlib.Data.List.Induction

/-! # What is given back

`pcc_lr_answer__destroy` and the other functions that destroy the answers, the entries
and the heads. They belong to the entries of the memo table: an answer is in a map of
one, or is linked to another answer by `hold`, and so are heads. The table gives them
back where it is shifted, and when the context is destroyed.

Whatever the parser does, each of them is given back once. That is the account that the
changes of a context keep.
-/

namespace Jetlang.Lr

variable {ρ α : Type}

/-- What is given back. -/
inductive Freed where
  | answer (a : ℕ)
  | entry (e : ℕ)
  | head (h : ℕ)
deriving DecidableEq, Repr

/-! ## The functions that destroy -/

/-- What goes with an answer: an entry, by `pcc_lr_entry__destroy`, or a chunk. -/
def LrData.freed : LrData α → List Freed
  | .lr e => [.entry e]
  | .chunk _ => []

/-- The entry that goes with an answer. -/
def LrData.entry : LrData α → Option ℕ
  | .lr e => some e
  | .chunk _ => none

/-- `pcc_lr_answer__destroy`, for at most `n` answers. -/
def pccLrAnswerDestroy (answers : List (LrAnswer α)) : ℕ → Option ℕ → Except Stop (List Freed)
  | _, none => .ok []
  | 0, some _ => .error .deep
  | n + 1, some a =>
      match answers[a]? with
      | some answer =>
          match pccLrAnswerDestroy answers n answer.hold with
          | .ok freed => .ok (answer.data.freed ++ .answer a :: freed)
          | .error e => .error e
      | none => .error .fault

/-- `pcc_lr_head__destroy`, for at most `n` heads. -/
def pccLrHeadDestroy (heads : List (LrHead ρ)) : ℕ → Option ℕ → Except Stop (List Freed)
  | _, none => .ok []
  | 0, some _ => .error .deep
  | n + 1, some h =>
      match heads[h]? with
      | some head =>
          match pccLrHeadDestroy heads n head.hold with
          | .ok freed => .ok (freed ++ [.head h])
          | .error e => .error e
      | none => .error .fault

/-- `pcc_lr_memo_map__term`, from the last answer to the first one. -/
def pccLrMemoMapTerm (answers : List (LrAnswer α)) :
    List (ρ × ℕ) → Except Stop (List Freed)
  | [] => .ok []
  | memo :: map =>
      match pccLrMemoMapTerm answers map with
      | .ok freed =>
          match pccLrAnswerDestroy answers answers.length (some memo.2) with
          | .ok freed' => .ok (freed ++ freed')
          | .error e => .error e
      | .error e => .error e

/-- `pcc_lr_table_entry__destroy`. -/
def pccLrTableEntryDestroy (ctx : Context ρ α) :
    Option (LrTableEntry ρ) → Except Stop (List Freed)
  | none => .ok []
  | some entry =>
      match pccLrHeadDestroy ctx.heads ctx.heads.length entry.holdH,
          pccLrAnswerDestroy ctx.answers ctx.answers.length entry.holdA,
          pccLrMemoMapTerm ctx.answers entry.memos with
      | .ok heads, .ok held, .ok memos => .ok (heads ++ held ++ memos)
      | .error e, _, _ => .error e
      | _, .error e, _ => .error e
      | _, _, .error e => .error e

/-- Entries of the table, one after the other. -/
def destroyEntries (ctx : Context ρ α) : List (Option (LrTableEntry ρ)) → Except Stop (List Freed)
  | [] => .ok []
  | entry :: entries =>
      match pccLrTableEntryDestroy ctx entry with
      | .ok freed =>
          match destroyEntries ctx entries with
          | .ok freed' => .ok (freed ++ freed')
          | .error e => .error e
      | .error e => .error e

/-- The entries of the table that do not dangle. -/
def LrTable.live (table : LrTable ρ) : List (Option (LrTableEntry ρ)) := table.buf.drop table.ofs

/-- What `pcc_commit_buffer` gives back, where it shifts the table. -/
def commitFrees (ctx : Context ρ α) : Except Stop (List Freed) :=
  destroyEntries ctx (ctx.lrtable.live.take ctx.cur)

/-- `pcc_context__destroy`, where it terminates the table. -/
def pccContextDestroy (ctx : Context ρ α) : Except Stop (List Freed) :=
  destroyEntries ctx ctx.lrtable.live.reverse

/-! ## What belongs to the table -/

/-- The answers that an entry of the table leads to. -/
def entryAnswers : Option (LrTableEntry ρ) → List ℕ
  | none => []
  | some entry => entry.holdA.toList ++ entry.memos.map Prod.snd

/-- The heads that it leads to. -/
def entryHeads : Option (LrTableEntry ρ) → List ℕ
  | none => []
  | some entry => entry.holdH.toList

/-- The answers that the table leads to. -/
def LrTable.answers (table : LrTable ρ) : List ℕ := table.live.flatMap entryAnswers

/-- The heads that it leads to. -/
def LrTable.heads (table : LrTable ρ) : List ℕ := table.live.flatMap entryHeads

/-- What goes with an answer, and the answer itself. -/
def freedAt (answers : List (LrAnswer α)) (a : ℕ) : List Freed :=
  (answers[a]?.map fun answer => answer.data.freed).getD [] ++ [.answer a]

section Destroy

variable {answers : List (LrAnswer α)} {heads : List (LrHead ρ)} {start : Option ℕ} {l : List ℕ}
  {n : ℕ} {C : Context ρ α}

/-- Along a chain the answers are given back, each before the one it holds. -/
theorem pccLrAnswerDestroy_chain (h : Chains.Chain (Chains.linked LrAnswer.hold answers) start l)
    (hlt : ∀ a ∈ l, a < answers.length) (hn : l.length ≤ n) :
    pccLrAnswerDestroy answers n start = .ok (l.flatMap (freedAt answers)) := by
  induction h generalizing n with
  | nil =>
    unfold pccLrAnswerDestroy
    rfl
  | @cons a l _ ih =>
    obtain ⟨k, rfl⟩ : ∃ k, n = k + 1 := ⟨n - 1, by rw [List.length_cons] at hn; omega⟩
    have ha := List.getElem?_eq_getElem (hlt a List.mem_cons_self)
    have hrest := ih (fun b hb => hlt b (List.mem_cons_of_mem a hb)) (Nat.le_of_succ_le_succ hn)
    rw [Chains.linked_of_get ha] at hrest
    unfold pccLrAnswerDestroy
    rw [ha]
    dsimp only
    rw [hrest, List.flatMap_cons, freedAt, ha]
    simp

/-- Along a chain the heads are given back, each behind the one it holds. -/
theorem pccLrHeadDestroy_chain (h : Chains.Chain (Chains.linked LrHead.hold heads) start l)
    (hlt : ∀ a ∈ l, a < heads.length) (hn : l.length ≤ n) :
    pccLrHeadDestroy heads n start = .ok (l.map Freed.head).reverse := by
  induction h generalizing n with
  | nil =>
    unfold pccLrHeadDestroy
    rfl
  | @cons a l _ ih =>
    obtain ⟨k, rfl⟩ : ∃ k, n = k + 1 := ⟨n - 1, by rw [List.length_cons] at hn; omega⟩
    have ha := List.getElem?_eq_getElem (hlt a List.mem_cons_self)
    have hrest := ih (fun b hb => hlt b (List.mem_cons_of_mem a hb)) (Nat.le_of_succ_le_succ hn)
    rw [Chains.linked_of_get ha] at hrest
    unfold pccLrHeadDestroy
    rw [ha]
    dsimp only
    rw [hrest, List.map_cons, List.reverse_cons]

/-- The answers of a map. -/
theorem pccLrMemoMapTerm_lists {map : List (ρ × ℕ)} :
    ∀ {l : List ℕ}, Chains.Lists (Chains.linked LrAnswer.hold answers) (map.map Prod.snd) l →
      (∀ a ∈ l, a < answers.length) → l.length ≤ answers.length →
      ∃ freed, pccLrMemoMapTerm answers map = .ok freed ∧
        freed.Perm (l.flatMap (freedAt answers)) := by
  induction map with
  | nil =>
    intro l hl _ _
    cases hl
    exact ⟨[], rfl, .refl _⟩
  | cons memo map ih =>
    intro l hl hlt hn
    cases hl with
    | @cons _ _ l₁ l₂ hchain hlists =>
      rw [List.length_append] at hn
      rcases ih hlists (fun a ha => hlt a (List.mem_append_right l₁ ha)) (by omega)
        with ⟨freed, hrun, hperm⟩
      -- the map is emptied from its end, so the first chain goes last
      have hfirst := pccLrAnswerDestroy_chain hchain
        (fun a ha => hlt a (List.mem_append_left l₂ ha)) (n := answers.length) (by omega)
      refine ⟨freed ++ l₁.flatMap (freedAt answers), ?_, ?_⟩
      · unfold pccLrMemoMapTerm
        rw [hrun, hfirst]
      · rw [List.flatMap_append]
        exact List.perm_append_comm.trans (hperm.append_left _)

/-- The lists of an entry are given back. -/
theorem pccLrTableEntryDestroy_lists {entry : Option (LrTableEntry ρ)} {m : List ℕ}
    (hl : Chains.Lists (Chains.linked LrAnswer.hold C.answers) (entryAnswers entry) l)
    (hm : Chains.Lists (Chains.linked LrHead.hold C.heads) (entryHeads entry) m)
    (hlt : ∀ a ∈ l, a < C.answers.length) (hlen : l.length ≤ C.answers.length)
    (hlt' : ∀ h ∈ m, h < C.heads.length) (hlen' : m.length ≤ C.heads.length) :
    ∃ freed, pccLrTableEntryDestroy C entry = .ok freed ∧
      freed.Perm (l.flatMap (freedAt C.answers) ++ m.map Freed.head) := by
  cases entry with
  | none =>
    cases hl
    cases hm
    exact ⟨[], rfl, .refl _⟩
  | some entry =>
    rcases Chains.Lists.split hl with ⟨l₁, l₂, rfl, hheld, hmemos⟩
    rw [List.length_append] at hlen
    rcases pccLrMemoMapTerm_lists hmemos (fun a ha => hlt a (List.mem_append_right l₁ ha))
      (by omega) with ⟨freed, hrun, hperm⟩
    have hanswers := pccLrAnswerDestroy_chain hheld.chain
      (fun a ha => hlt a (List.mem_append_left l₂ ha)) (n := C.answers.length) (by omega)
    have hheads := pccLrHeadDestroy_chain hm.chain hlt' hlen'
    -- heads go first, then held answers, then those of the map
    refine ⟨(m.map Freed.head).reverse ++ l₁.flatMap (freedAt C.answers) ++ freed, ?_, ?_⟩
    · unfold pccLrTableEntryDestroy
      dsimp only
      rw [hheads, hanswers, hrun]
    · rw [List.flatMap_append, List.append_assoc]
      refine List.perm_append_comm.trans ?_
      exact (hperm.append_left _).append (List.reverse_perm _)

/-- Those of several entries. -/
theorem destroyEntries_lists {entries : List (Option (LrTableEntry ρ))} :
    ∀ {l m : List ℕ},
      Chains.Lists (Chains.linked LrAnswer.hold C.answers) (entries.flatMap entryAnswers) l →
      Chains.Lists (Chains.linked LrHead.hold C.heads) (entries.flatMap entryHeads) m →
      (∀ a ∈ l, a < C.answers.length) → l.length ≤ C.answers.length →
      (∀ h ∈ m, h < C.heads.length) → m.length ≤ C.heads.length →
      ∃ freed, destroyEntries C entries = .ok freed ∧
        freed.Perm (l.flatMap (freedAt C.answers) ++ m.map Freed.head) := by
  induction entries with
  | nil =>
    intro l m hl hm _ _ _ _
    cases hl
    cases hm
    exact ⟨[], rfl, .refl _⟩
  | cons entry entries ih =>
    intro l m hl hm hlt hlen hlt' hlen'
    rcases Chains.Lists.split hl with ⟨l₁, l₂, rfl, hl₁, hl₂⟩
    rcases Chains.Lists.split hm with ⟨m₁, m₂, rfl, hm₁, hm₂⟩
    rw [List.length_append] at hlen hlen'
    rcases pccLrTableEntryDestroy_lists hl₁ hm₁
      (fun a ha => hlt a (List.mem_append_left l₂ ha)) (by omega)
      (fun a ha => hlt' a (List.mem_append_left m₂ ha)) (by omega) with ⟨freed, hrun, hperm⟩
    rcases ih hl₂ hm₂
      (fun a ha => hlt a (List.mem_append_right l₁ ha)) (by omega)
      (fun a ha => hlt' a (List.mem_append_right m₁ ha)) (by omega) with ⟨freed', hrun', hperm'⟩
    refine ⟨freed ++ freed', ?_, ?_⟩
    · unfold destroyEntries
      rw [hrun]
      dsimp only
      rw [hrun']
    · rw [List.flatMap_append, List.map_append]
      -- answers and heads of each entry against all answers and all heads
      refine (hperm.append hperm').trans ?_
      rw [List.append_assoc, List.append_assoc]
      refine List.Perm.append_left _ ?_
      rw [← List.append_assoc, ← List.append_assoc]
      exact List.perm_append_comm.append_right _

end Destroy

/-! ## Changes of the table -/

section Table

variable {F : Option (LrTableEntry ρ) → List ℕ}

/-- An entry that is changed stands for what it led to before, and leads to more. -/
theorem flatMap_modify (hnone : F none = []) (hnew : F (some pccLrTableEntryCreate) = [])
    (table : LrTable ρ) (index : ℕ) (f : LrTableEntry ρ → LrTableEntry ρ) :
    ∃ rest,
      (table.live.flatMap F).Perm
        (F (some ((table.entry index).getD pccLrTableEntryCreate)) ++ rest) ∧
      ((table.modify index f).live.flatMap F).Perm
        (F (some (f ((table.entry index).getD pccLrTableEntryCreate))) ++ rest) := by
  -- the buffer is made long enough before the entry is written
  let reached := (table.reach (index + table.ofs)).buf
  let live := reached.drop table.ofs
  have hlt : index < live.length := by
    have hreach : index + table.ofs < reached.length := lt_length_reach table _
    rw [List.length_drop]
    omega
  have hlive : live.flatMap F = table.live.flatMap F := by
    show (List.drop _ (LrTable.buf _)).flatMap F = _
    rw [reach_buf, List.drop_append_of_le_length table.ofs_le, List.flatMap_append,
      List.flatMap_replicate, hnone]
    simp [LrTable.live]
  have hmodify : (table.modify index f).live =
      live.set index (some (f ((table.entry index).getD pccLrTableEntryCreate))) := by
    show List.drop (table.reach (index + table.ofs)).ofs (List.set _ _ _) = _
    rw [reach_ofs, reach_getElem, List.drop_set, if_neg (by omega), Nat.add_sub_cancel]
    rfl
  -- an entry made for the change leads to nothing, as no entry does
  have hold : F live[index] = F (some ((table.entry index).getD pccLrTableEntryCreate)) := by
    have hget : (some live[index]).join = table.entry index := by
      rw [← List.getElem?_eq_getElem hlt, List.getElem?_drop, Nat.add_comm]
      exact reach_getElem table (index + table.ofs) (index + table.ofs)
    rw [← hget]
    cases live[index] with
    | none => exact hnone.trans hnew.symm
    | some entry => rfl
  refine ⟨(live.eraseIdx index).flatMap F, ?_, ?_⟩
  · rw [← hlive, ← hold]
    exact (List.getElem_cons_eraseIdx_perm hlt).symm.flatMap_right F
  · rw [hmodify]
    exact (List.set_perm_cons_eraseIdx hlt _).flatMap_right F

variable (table : LrTable ρ) (index a : ℕ)

/-- A change of an entry of the table that keeps what it holds keeps what the table
holds. -/
theorem answers_modify {f : LrTableEntry ρ → LrTableEntry ρ}
    (hf : ∀ e, entryAnswers (some (f e)) = entryAnswers (some e)) :
    table.answers.Perm (table.modify index f).answers := by
  rcases flatMap_modify (F := entryAnswers) rfl rfl table index f with ⟨rest, hbefore, hafter⟩
  rw [hf] at hafter
  exact hbefore.trans hafter.symm

theorem heads_modify {f : LrTableEntry ρ → LrTableEntry ρ}
    (hf : ∀ e, entryHeads (some (f e)) = entryHeads (some e)) :
    table.heads.Perm (table.modify index f).heads := by
  rcases flatMap_modify (F := entryHeads) rfl rfl table index f with ⟨rest, hbefore, hafter⟩
  rw [hf] at hafter
  exact hbefore.trans hafter.symm

/-- An answer that is held stands in front of those that were. -/
theorem answers_holdAnswer : ∃ rest,
    table.answers.Perm (((table.entry index).bind LrTableEntry.holdA).toList ++ rest) ∧
      (pccLrTableHoldAnswer table index a).answers.Perm (a :: rest) := by
  rcases flatMap_modify (F := entryAnswers) rfl rfl table index
    (fun entry => { entry with holdA := some a }) with ⟨rest, hbefore, hafter⟩
  have hold : ((table.entry index).getD pccLrTableEntryCreate).holdA =
      (table.entry index).bind LrTableEntry.holdA := by
    cases table.entry index <;> rfl
  refine ⟨((table.entry index).getD pccLrTableEntryCreate).memos.map Prod.snd ++ rest, ?_, hafter⟩
  rw [← hold, ← List.append_assoc]
  exact hbefore

/-- So does a head. -/
theorem heads_holdHead : ∃ rest,
    table.heads.Perm (((table.entry index).bind LrTableEntry.holdH).toList ++ rest) ∧
      (pccLrTableHoldHead table index a).heads.Perm (a :: rest) := by
  rcases flatMap_modify (F := entryHeads) rfl rfl table index
    (fun entry => { entry with holdH := some a }) with ⟨rest, hbefore, hafter⟩
  have hold : ((table.entry index).getD pccLrTableEntryCreate).holdH =
      (table.entry index).bind LrTableEntry.holdH := by
    cases table.entry index <;> rfl
  refine ⟨rest, ?_, hafter⟩
  rw [← hold]
  exact hbefore

/-- A shift drops entries from the front. -/
theorem live_shift (count : ℕ) : (pccLrTableShift table count).live = table.live.drop count := by
  have hle := table.ofs_le
  have hdrop : table.buf.drop (table.ofs + min count (table.buf.length - table.ofs)) =
      (table.buf.drop table.ofs).drop count := by
    rw [List.drop_drop]
    by_cases h : count ≤ table.buf.length - table.ofs
    · rw [Nat.min_eq_left h]
    · -- all entries go
      rw [List.drop_eq_nil_of_le (by omega), List.drop_eq_nil_of_le (by omega)]
  unfold pccLrTableShift LrTable.live
  dsimp only
  split
  · exact hdrop
  · exact hdrop

variable [DecidableEq ρ]

/-- A rule without an answer is put behind those that have one. -/
theorem pccLrMemoMapPut_of_none {map : List (ρ × ℕ)} {rule : ρ}
    (h : pccLrMemoMapGet map rule = none) :
    pccLrMemoMapPut map rule a = map ++ [(rule, a)] := by
  induction map with
  | nil => rfl
  | cons memo map ih =>
    rw [pccLrMemoMapGet_cons] at h
    rw [pccLrMemoMapPut_cons]
    split at h
    · cases h
    · rename_i hne
      rw [if_neg hne, ih h, List.cons_append]

/-- A new answer is held by the entry of its position. -/
theorem answers_setAnswer {rule : ρ} (h : pccLrTableGetAnswer table index rule = none) :
    (pccLrTableSetAnswer table index rule a).answers.Perm (a :: table.answers) := by
  rcases flatMap_modify (F := entryAnswers) rfl rfl table index
    (fun entry => { entry with memos := pccLrMemoMapPut entry.memos rule a })
    with ⟨rest, hbefore, hafter⟩
  have hget : pccLrMemoMapGet ((table.entry index).getD pccLrTableEntryCreate).memos rule =
      none := by
    unfold pccLrTableGetAnswer at h
    cases hentry : table.entry index with
    | none => rfl
    | some entry =>
      rw [hentry] at h
      exact h
  have hmemos := pccLrMemoMapPut_of_none a hget
  refine hafter.trans (List.Perm.trans ?_ (hbefore.symm.cons a))
  unfold entryAnswers
  dsimp only
  rw [hmemos, List.map_append, List.map_singleton, ← List.append_assoc]
  exact (List.perm_append_singleton a _).append_right rest

theorem heads_setAnswer (rule : ρ) :
    table.heads.Perm (pccLrTableSetAnswer table index rule a).heads :=
  heads_modify table index fun _ => rfl

end Table

/-! ## The account -/

/-- The account of a context from which `gone` was given back, the answers `goneA` and the
heads `goneH` among it. What is left is led to by the table, each of it once; an entry goes
with one answer. The answers from number `b` on are all left. -/
structure Ledger (b : ℕ) (gone : List Freed) (goneA goneH : List ℕ) (C : Context ρ α) :
    Prop where
  le_length : b ≤ C.answers.length
  old : ∀ a ∈ goneA, a < b
  answers : Chains.Accounted (Chains.linked LrAnswer.hold C.answers) C.lrtable.answers goneA
    C.answers.length
  heads : Chains.Accounted (Chains.linked LrHead.hold C.heads) C.lrtable.heads goneH
    C.heads.length
  entries : (C.answers.filterMap fun answer => answer.data.entry).Perm
    (List.range C.entries.length)
  gone : gone.Perm (goneA.flatMap (freedAt C.answers) ++ goneH.map Freed.head)

section Ledger

variable {b : ℕ} {gone : List Freed} {goneA goneH : List ℕ} {C : Context ρ α}

/-- A change that `f` does not see. -/
theorem map_modify_of_eq {β γ : Type} {f : β → γ} {g : β → β} (hsame : ∀ x, f (g x) = f x)
    {l : List β} {i : ℕ} : (l.modify i g).map f = l.map f := by
  refine List.ext_getElem? fun j => ?_
  rw [List.getElem?_map, List.getElem?_map, List.getElem?_modify]
  split
  · cases l[j]? with
    | none => rfl
    | some x => exact congrArg some (hsame x)
  · cases l[j]? <;> rfl

theorem modify_concat {β : Type} {l : List β} {x : β} (f : β → β) :
    (l ++ [x]).modify l.length f = l ++ [f x] := by
  induction l with
  | nil => rfl
  | cons y l ih => exact congrArg (y :: ·) ih

/-- The entries that answers refer to are read off their data. -/
theorem filterMap_data (answers : List (LrAnswer α)) :
    (answers.filterMap fun answer => answer.data.entry) =
      (answers.map LrAnswer.data).filterMap LrData.entry := by
  rw [List.filterMap_map]
  rfl

/-- What goes with an answer that has the same data is the same. -/
theorem freedAt_congr {answers answers' : List (LrAnswer α)} {a : ℕ}
    (h : answers'[a]?.map LrAnswer.data = answers[a]?.map LrAnswer.data) :
    freedAt answers' a = freedAt answers a := by
  have hfreed := congrArg (Option.map LrData.freed) h
  rw [Option.map_map, Option.map_map] at hfreed
  unfold freedAt
  exact congrArg (fun freed => freed.getD [] ++ [Freed.answer a]) hfreed

/-- What is given back with an answer is decided by its data. -/
theorem flatMap_freedAt_congr (answers : List (LrAnswer α)) {answers' : List (LrAnswer α)}
    (h : ∀ a ∈ goneA, answers'[a]?.map LrAnswer.data = answers[a]?.map LrAnswer.data) :
    goneA.flatMap (freedAt answers') = goneA.flatMap (freedAt answers) := by
  rw [List.flatMap_def, List.flatMap_def]
  exact congrArg List.flatten (List.map_congr_left fun a ha => freedAt_congr (h a ha))

/-- A new answer. -/
theorem Ledger.goneConcat (h : Ledger b gone goneA goneH C) (answer : LrAnswer α) :
    gone.Perm (goneA.flatMap (freedAt (C.answers ++ [answer])) ++ goneH.map Freed.head) := by
  rw [flatMap_freedAt_congr C.answers fun a ha => ?_]
  · exact h.gone
  · rw [List.getElem?_append_left (Nat.lt_of_lt_of_le (h.old a ha) h.le_length)]

/-- The account stands while the rules of a head change. -/
theorem Ledger.setHead (h : Ledger b gone goneA goneH C) {i : ℕ} {head head' : LrHead ρ}
    (hi : C.heads[i]? = some head) (hhold : head'.hold = head.hold) :
    Ledger b gone goneA goneH { C with heads := C.heads.set i head' } :=
  { h with
    heads := by
      show Chains.Accounted (Chains.linked LrHead.hold (C.heads.set i head')) _ _
        (C.heads.set i head').length
      rw [Chains.linked_set hi hhold, List.length_set]
      exact h.heads }

theorem Ledger.setAnswerPos (h : Ledger b gone goneA goneH C) (a pos : ℕ) :
    Ledger b gone goneA goneH (C.setAnswerPos a pos) := by
  have hlen : (C.setAnswerPos a pos).answers.length = C.answers.length := List.length_modify ..
  have hlinked : Chains.linked LrAnswer.hold (C.setAnswerPos a pos).answers =
      Chains.linked LrAnswer.hold C.answers := Chains.linked_modify fun _ => rfl
  have hdata : (C.setAnswerPos a pos).answers.map LrAnswer.data =
      C.answers.map LrAnswer.data :=
    map_modify_of_eq (f := LrAnswer.data) (g := fun answer => { answer with pos := pos })
      fun _ => rfl
  constructor
  case le_length =>
    rw [hlen]
    exact h.le_length
  case old => exact h.old
  case answers =>
    rw [hlinked, hlen]
    exact h.answers
  case heads => exact h.heads
  case entries =>
    have hentries := h.entries
    rw [filterMap_data, ← hdata, ← filterMap_data] at hentries
    exact hentries
  case gone =>
    rw [flatMap_freedAt_congr C.answers fun a' _ => ?_]
    · exact h.gone
    · rw [← List.getElem?_map, ← List.getElem?_map, hdata]

/-- A rule without an answer is put on the stack. -/
theorem Ledger.begin [DecidableEq ρ] (h : Ledger b gone goneA goneH C) (rule : ρ) (p : ℕ)
    (hnone : pccLrTableGetAnswer C.lrtable p rule = none) :
    Ledger b gone goneA goneH (C.begin rule p) := by
  constructor
  case le_length =>
    exact Nat.le_trans h.le_length (List.length_append ▸ Nat.le_add_right _ _)
  case old => exact h.old
  case answers =>
    exact h.answers.concat (x := ⟨.lr C.entries.length, p, none⟩) (.refl _)
      (answers_setAnswer _ p _ hnone)
  case heads => exact h.heads.perm (heads_setAnswer _ p _ rule)
  case entries =>
    show ((C.answers ++ [_]).filterMap _).Perm (List.range (C.entries ++ [_]).length)
    rw [List.filterMap_append, List.length_append, List.length_singleton, List.range_succ]
    exact h.entries.append_right _
  case gone => exact h.goneConcat _

/-- A new head is held by its position. -/
theorem Ledger.createHead (h : Ledger b gone goneA goneH C) (p : ℕ) (rule : ρ) :
    Ledger b gone goneA goneH (C.createHead p rule).2 := by
  rcases heads_holdHead C.lrtable p C.heads.length with ⟨rest, hbefore, hafter⟩
  exact
    { h with
      answers := h.answers.perm (answers_modify _ p fun _ => rfl)
      heads := h.heads.concat hbefore hafter }

/-- So is a new answer. -/
theorem Ledger.keepAnswer (h : Ledger b gone goneA goneH C) (p : ℕ)
    (c : Option (List (Pcc.Thunk α))) (pos : ℕ) :
    Ledger b gone goneA goneH
      ((pccLrAnswerCreate C (.chunk c) pos).2.holdAnswer p C.answers.length) := by
  rcases answers_holdAnswer C.lrtable p C.answers.length with ⟨rest, hbefore, hafter⟩
  have hanswers : ((pccLrAnswerCreate C (.chunk c) pos).2.holdAnswer p C.answers.length).answers =
      C.answers ++ [⟨.chunk c, pos, (C.lrtable.entry p).bind LrTableEntry.holdA⟩] :=
    modify_concat _
  constructor
  case le_length =>
    rw [hanswers, List.length_append]
    exact Nat.le_trans h.le_length (Nat.le_add_right _ _)
  case old => exact h.old
  case answers =>
    rw [hanswers]
    exact h.answers.concat hbefore hafter
  case heads => exact h.heads.perm (heads_modify _ p fun _ => rfl)
  case entries =>
    rw [hanswers, List.filterMap_append]
    exact (List.append_nil _).symm ▸ h.entries
  case gone =>
    rw [hanswers]
    exact h.goneConcat _

/-- An answer that gets its chunk gives its old data to a new one, which it holds. -/
theorem Ledger.setChunk {C' : Context ρ α} {a : ℕ} {c : Option (List (Pcc.Thunk α))}
    (h : Ledger b gone goneA goneH C) (ha : b ≤ a) (hC' : pccLrAnswerSetChunk C a c = .ok C') :
    Ledger b gone goneA goneH C' := by
  unfold pccLrAnswerSetChunk at hC'
  cases hanswer : C.answers[a]? with
  | none =>
    rw [hanswer] at hC'
    cases hC'
  | some answer =>
    rw [hanswer] at hC'
    cases hC'
    -- an answer that is written is not one of those given back
    have hgone : a ∉ goneA := fun hmem => Nat.not_le.mpr (h.old a hmem) ha
    constructor
    case le_length =>
      rw [List.length_set, List.length_append]
      exact Nat.le_trans h.le_length (Nat.le_add_right _ _)
    case old => exact h.old
    case answers => exact h.answers.behind hanswer hgone rfl
    case heads => exact h.heads
    case entries => exact (Chains.filterMap_behind hanswer rfl).trans h.entries
    case gone =>
      dsimp only
      rw [flatMap_freedAt_congr (C.answers ++ [answer]) fun a' ha' => ?_]
      · exact h.goneConcat answer
      · have hne : a ≠ a' := fun heq => hgone (heq ▸ ha')
        rw [List.getElem?_set_ne hne]

/-- **All changes of a context keep the account.** -/
theorem ledger_invariant [DecidableEq ρ] (b : ℕ) (gone : List Freed) (goneA goneH : List ℕ) :
    Invariant b (Ledger b gone goneA goneH : Context ρ α → Prop) where
  le_length h := h.le_length
  moved h _ _ _ _ _ _ := { h with }
  setEntry h e entry :=
    { h with
      entries := by
        show List.Perm _ (List.range (List.set _ _ _).length)
        rw [List.length_set]
        exact h.entries }
  setHead h hi hhold := h.setHead hi hhold
  setTableHead h p head :=
    { h with
      answers := h.answers.perm (answers_modify _ p fun _ => rfl)
      heads := h.heads.perm (heads_modify _ p fun _ => rfl) }
  setAnswerPos h a pos := h.setAnswerPos a pos
  begin h rule p hnone := h.begin rule p hnone
  createHead h p rule := h.createHead p rule
  keepAnswer h p c pos := h.keepAnswer p c pos
  setChunk h ha hC' := h.setChunk ha hC'

/-! ## Giving back -/

theorem perm_append_swap {β : Type} (a c d e : List β) :
    (a ++ c ++ (d ++ e)).Perm (d ++ a ++ (e ++ c)) := by
  refine List.perm_append_comm.trans ?_
  rw [List.append_assoc, List.append_assoc]
  refine List.Perm.append_left d ?_
  rw [← List.append_assoc, ← List.append_assoc]
  exact List.perm_append_comm.append_right c

/-- Some of the entries of the table are destroyed, and the others keep the account. -/
theorem Ledger.destroy (h : Ledger b gone goneA goneH C)
    {entries rest : List (Option (LrTableEntry ρ))}
    (hlive : C.lrtable.live.Perm (entries ++ rest)) :
    ∃ freed l m, destroyEntries C entries = .ok freed ∧
      Chains.Accounted (Chains.linked LrAnswer.hold C.answers) (rest.flatMap entryAnswers)
        (l ++ goneA) C.answers.length ∧
      Chains.Accounted (Chains.linked LrHead.hold C.heads) (rest.flatMap entryHeads)
        (m ++ goneH) C.heads.length ∧
      (gone ++ freed).Perm ((l ++ goneA).flatMap (freedAt C.answers) ++
        (m ++ goneH).map Freed.head) := by
  have hanswers : C.lrtable.answers.Perm
      (entries.flatMap entryAnswers ++ rest.flatMap entryAnswers) := by
    rw [← List.flatMap_append]
    exact hlive.flatMap_right _
  have hheads : C.lrtable.heads.Perm
      (entries.flatMap entryHeads ++ rest.flatMap entryHeads) := by
    rw [← List.flatMap_append]
    exact hlive.flatMap_right _
  -- what the destroyed entries lead to leaves the account
  rcases h.answers.drop hanswers with ⟨l, hl, hleft⟩
  rcases h.heads.drop hheads with ⟨m, hm, hleft'⟩
  rcases hleft.drop_lt with ⟨hlt, hlen⟩
  rcases hleft'.drop_lt with ⟨hlt', hlen'⟩
  rcases destroyEntries_lists hl hm hlt hlen hlt' hlen' with ⟨freed, hrun, hperm⟩
  refine ⟨freed, l, m, hrun, hleft, hleft', ?_⟩
  rw [List.flatMap_append, List.map_append]
  exact (h.gone.append hperm).trans (perm_append_swap _ _ _ _)

/-- The commit gives back what the entries lead to that go. -/
theorem Ledger.commit (h : Ledger b gone goneA goneH C) :
    ∃ freed goneA' goneH', commitFrees C = .ok freed ∧
      Ledger C.answers.length (gone ++ freed) goneA' goneH' (pccCommitBuffer C) := by
  have hlive : C.lrtable.live.Perm (C.lrtable.live.take C.cur ++ C.lrtable.live.drop C.cur) := by
    rw [List.take_append_drop]
  rcases h.destroy hlive with ⟨freed, l, m, hrun, hanswers, hheads, hgone⟩
  rw [← live_shift] at hanswers hheads
  exact ⟨freed, _, _, hrun,
    { le_length := Nat.le_refl _
      old := fun a ha => hanswers.lt_of_gone ha
      answers := hanswers
      heads := hheads
      entries := h.entries
      gone := hgone }⟩

/-- What goes with all answers. -/
theorem flatMap_freedAt (answers : List (LrAnswer α)) :
    ((List.range answers.length).flatMap (freedAt answers)).Perm
      ((answers.filterMap fun answer => answer.data.entry).map Freed.entry ++
        (List.range answers.length).map Freed.answer) := by
  induction answers using List.reverseRecOn with
  | nil => exact .refl _
  | append_singleton answers answer ih =>
    -- the older answers are where they were
    have hold : (List.range answers.length).flatMap (freedAt (answers ++ [answer])) =
        (List.range answers.length).flatMap (freedAt answers) :=
      flatMap_freedAt_congr answers fun a ha => by
        rw [List.getElem?_append_left (List.mem_range.mp ha)]
    have hnew : freedAt (answers ++ [answer]) answers.length =
        answer.data.freed ++ [.answer answers.length] := by
      unfold freedAt
      rw [List.getElem?_concat_length]
      rfl
    have hentry : ([answer].filterMap fun answer => answer.data.entry).map Freed.entry =
        answer.data.freed := by
      rw [List.filterMap_cons]
      cases answer.data <;> rfl
    rw [List.length_append, List.length_singleton, List.range_succ, List.flatMap_append,
      List.filterMap_append, List.map_append, List.map_append, hold, hentry,
      List.flatMap_singleton, hnew]
    refine (ih.append_right _).trans ?_
    rw [List.append_assoc, List.append_assoc]
    refine List.Perm.append_left _ ?_
    rw [← List.append_assoc, ← List.append_assoc]
    exact List.perm_append_comm.append_right _

/-- All answers, entries and heads. -/
def Context.objects (ctx : Context ρ α) : List Freed :=
  (List.range ctx.entries.length).map .entry ++ (List.range ctx.answers.length).map .answer ++
    (List.range ctx.heads.length).map .head

/-- When the context is destroyed what is left is given back. -/
theorem Ledger.destroyed (h : Ledger b gone goneA goneH C) :
    ∃ last, pccContextDestroy C = .ok last ∧ (gone ++ last).Perm C.objects := by
  have hlive : C.lrtable.live.Perm (C.lrtable.live.reverse ++ []) := by
    rw [List.append_nil]
    exact (List.reverse_perm _).symm
  -- every entry goes, the last one first
  rcases h.destroy hlive with ⟨last, l, m, hrun, hanswers, hheads, hgone⟩
  refine ⟨last, hrun, hgone.trans ?_⟩
  refine List.Perm.append ?_ (hheads.all.map Freed.head)
  refine (hanswers.all.flatMap_right _).trans ((flatMap_freedAt C.answers).trans ?_)
  exact (h.entries.map Freed.entry).append_right _

end Ledger

/-! ## Parses -/

section Parses

variable [DecidableEq ρ] {conv : UInt8 → ℤ} {g : ρ → Body ρ α} {fuel : ℕ} {rule : ρ}

/-- The calls of `pcc_parse` in a row, with what they give back. -/
def parseCallsFrees (conv : UInt8 → ℤ) (g : ρ → Body ρ α) (fuel : ℕ) (rule : ρ) :
    ℕ → Context ρ α → Except Stop (List Freed × Context ρ α)
  | 0, ctx => .ok ([], ctx)
  | n + 1, ctx =>
      match pccApplyRule (evaluate conv g fuel) rule (some 0) ctx [] with
      | .ok (true, ctx, _) =>
          match commitFrees ctx,
              parseCallsFrees conv g fuel rule n
                (pccRefillBuffer conv (pccCommitBuffer ctx) 1).2 with
          | .ok freed, .ok (freed', ctx) => .ok (freed ++ freed', ctx)
          | .error e, _ => .error e
          | _, .error e => .error e
      | .ok (false, ctx, _) => .ok ([], ctx)
      | .error e => .error e

/-- The account over several calls. The induction is on their number. -/
theorem parseCallsFrees_ledger (n : ℕ) :
    ∀ {C : Context ρ α} {b : ℕ} {gone : List Freed} {goneA goneH : List ℕ}, Sound C →
      Ledger b gone goneA goneH C →
      Ends C.size (parseCallsFrees conv g fuel rule n C) fun x =>
        parseCalls conv g fuel rule n C = .ok x.2 ∧
          ∃ b' goneA' goneH', Ledger b' (gone ++ x.1) goneA' goneH' x.2 := by
  induction n with
  | zero =>
    intro C b gone goneA goneH _ h
    exact Or.inr ⟨_, rfl, rfl, b, goneA, goneH, (List.append_nil gone).symm ▸ h⟩
  | succ n ih =>
    intro C b gone goneA goneH hC h
    have hI := ledger_invariant (ρ := ρ) (α := α) b gone goneA goneH
    unfold parseCallsFrees parseCalls
    rcases pccApplyRule_safe (evaluate_safe conv g fuel) rule (some 0) 0 C [] hC (Nat.zero_le _)
        .nil with ⟨err, hmay, hstop⟩ | ⟨⟨b', C₁, thunks⟩, hrun, hleads, -⟩
    · -- the first call has no result
      rw [hstop]
      exact Or.inl ⟨err, hmay, rfl⟩
    · have h₁ : Ledger b gone goneA goneH C₁ :=
        pccApplyRule_keeps hI (evaluate_keeps hI conv g fuel) rule (some 0) C [] h _ hrun
      rw [hrun]
      cases b' with
      | false =>
        exact Or.inr ⟨_, rfl, rfl, b, goneA, goneH, (List.append_nil gone).symm ▸ h₁⟩
      | true =>
        -- a call that matched commits, and the account goes on from there
        rcases h₁.commit with ⟨freed, goneA', goneH', hfreed, h₂⟩
        have h₃ : Ledger C₁.answers.length (gone ++ freed) goneA' goneH'
            (pccRefillBuffer conv (pccCommitBuffer C₁) 1).2 :=
          (ledger_invariant _ _ _ _).refill h₂ 1
        have hnext := hleads.between.trans (hleads.sound.next conv)
        dsimp only
        rw [hfreed]
        rcases ih hnext.sound h₃
          with ⟨err, hmay, hstop⟩ | ⟨⟨freed', C'⟩, hrest, hcalls, hledger⟩
        · rw [hstop]
          exact Or.inl ⟨err, hmay.mono hnext.size_le, rfl⟩
        · rw [hrest]
          rw [List.append_assoc] at hledger
          exact Or.inr ⟨_, rfl, hcalls, hledger⟩

end Parses

end Jetlang.Lr
