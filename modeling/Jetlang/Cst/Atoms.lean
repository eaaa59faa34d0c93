import Mathlib.Data.BitVec
import Mathlib.Algebra.Order.Group.Unbundled.Basic
import Jetlang.Mem.Block

/-! # The span tables of `cst.c`

An `INT`, `SYM` or `STR` atom is a pair of its tag and an index into the table
of that tag, where the span of the atom in the text is kept. The tables grow by
doubling their capacity, but ask `jet_realloc_a` for as many bytes as they have
entries, although an entry takes 8 bytes.
-/

namespace Jetlang.Cst

open Mem

/-! ## The code -/

/-- The tags of atoms. -/
inductive CstTag where
  | nil
  | int
  | sym
  | str
deriving DecidableEq, Repr

/-- An entry of a table: the `int`s `s` and `e`. -/
structure Span where
  s : ℤ
  e : ℤ
deriving DecidableEq, Repr

/-- A table, with the block `data` points to. An entry takes 8 bytes. -/
structure Svec where
  len : ℕ
  cap : ℕ
  data : Block 8 Span

/-- `struct CST`, the tables of the atoms. -/
structure CST where
  ints : Svec
  syms : Svec
  strs : Svec

/-- `cst_node_t`, made of an atom. -/
structure CstNode where
  tag : CstTag
  idx : ℤ
deriving DecidableEq, Repr

/-- The conversion of a `size_t` to `int`. -/
def toInt (n : ℕ) : ℤ := (BitVec.ofNat 32 n).toInt

/-- The first branch of `_cst_push_atom`: a full table is resized, to `cap`
bytes. -/
def Svec.grow (vec : Svec) : Svec :=
  if vec.len = vec.cap then
    let cap := vec.cap * 2 % 2 ^ 64
    ⟨vec.len, cap, vec.data.realloc cap⟩
  else
    vec

/-- `_cst_push_atom`. There is no result when the entry written is outside the
block. -/
def cstPushAtom (vec : Svec) (span : Span) : Option (ℤ × Svec) :=
  let vec := vec.grow
  let idx := toInt vec.len
  if 0 ≤ idx then
    match vec.data.write idx.toNat span with
    | some data => some (idx, ⟨(vec.len + 1) % 2 ^ 64, vec.cap, data⟩)
    | none => none
  else
    none

/-- The table of a tag. -/
def CST.table (cst : CST) : CstTag → Option Svec
  | .nil => none
  | .int => some cst.ints
  | .sym => some cst.syms
  | .str => some cst.strs

/-- `cst_make_atom`. -/
def cstMakeAtom (cst : CST) (tag : CstTag) (span : Span) : Option (CstNode × CST) :=
  match tag with
  | .nil => some (⟨.nil, 0⟩, cst)
  | .int =>
      match cstPushAtom cst.ints span with
      | some (idx, ints) => some (⟨.int, idx⟩, { cst with ints := ints })
      | none => none
  | .sym =>
      match cstPushAtom cst.syms span with
      | some (idx, syms) => some (⟨.sym, idx⟩, { cst with syms := syms })
      | none => none
  | .str =>
      match cstPushAtom cst.strs span with
      | some (idx, strs) => some (⟨.str, idx⟩, { cst with strs := strs })
      | none => none

/-! ## Runs -/

/-- An empty table of `cap` entries. -/
def Svec.new (cap : ℕ) : Svec := ⟨0, cap, Block.malloc (cap * 8)⟩

/-- A CST whose tables are empty. -/
def CST.new (cap : CstTag → ℕ) : CST := ⟨.new (cap .int), .new (cap .sym), .new (cap .str)⟩

/-- The arguments of a call of `cst_make_atom`. -/
structure Call where
  tag : CstTag
  span : Span
deriving DecidableEq, Repr

/-- The runs from `cst₀`: the calls made with the nodes they returned, and the
tables they leave. -/
inductive Run (cst₀ : CST) : List (Call × CstNode) → CST → Prop where
  | init : Run cst₀ [] cst₀
  | call {log : List (Call × CstNode)} {cst cst' : CST} {c : Call} {node : CstNode} :
      Run cst₀ log cst → cstMakeAtom cst c.tag c.span = some (node, cst') →
      Run cst₀ (log ++ [(c, node)]) cst'

/-- The node designates the span: it is the entry at its index. -/
def Designates (cst : CST) (node : CstNode) (span : Span) : Prop :=
  ∃ vec, cst.table node.tag = some vec ∧
    ∃ k < vec.len, node.idx = (k : ℤ) ∧ vec.data.slots[k]? = some (some span)

/-- What is asked of the tables after some calls: every node returned for an
`INT`, `SYM` or `STR` atom designates its span, and the entries of a table are
inside its block. -/
structure Keeps (cst : CST) (log : List (Call × CstNode)) : Prop where
  designates : ∀ x ∈ log, x.1.tag ≠ .nil → x.2.tag = x.1.tag ∧ Designates cst x.2 x.1.span
  inBlock : ∀ tag vec, cst.table tag = some vec → vec.len * 8 ≤ vec.data.size

/-- Every call of the sequence succeeds, leaves the tables of the other tags as
they are, and keeps all atoms made so far. -/
def KeepsAll (cst₀ : CST) (calls : List Call) : Prop :=
  ∀ before c after, calls = before ++ c :: after →
    ∃ log cst node cst', Run cst₀ log cst ∧ log.map Prod.fst = before ∧
      cstMakeAtom cst c.tag c.span = some (node, cst') ∧ Keeps cst' (log ++ [(c, node)]) ∧
      ∀ tag, tag ≠ c.tag → cst'.table tag = cst.table tag

/-! ## One table -/

/-- The entries a table of capacity `cap` can take: it must not grow, and the
indices are `int`s. -/
def limit (cap : ℕ) : ℕ := min cap (2 ^ 31)

/-- The table holds the spans `xs`, in its first block. -/
structure Svec.Reads (vec : Svec) (cap : ℕ) (xs : List Span) : Prop where
  len_eq : vec.len = xs.length
  cap_eq : vec.cap = cap
  size_eq : vec.data.size = cap * 8
  holds : vec.data.Holds xs
  le_limit : xs.length ≤ limit cap

theorem toInt_of_lt {n : ℕ} (hn : n < 2 ^ 31) : toInt n = n := by
  have hmod : (BitVec.ofNat 32 n).toNat = n := by
    rw [BitVec.toNat_ofNat]
    exact Nat.mod_eq_of_lt (by omega)
  unfold toInt
  rw [BitVec.toInt_eq_toNat_of_lt (by omega), hmod]

theorem toInt_two_pow : toInt (2 ^ 31) < 0 := by decide

theorem reads_new (cap : ℕ) : (Svec.new cap).Reads cap [] :=
  ⟨rfl, rfl, rfl, Block.holds_nil _, Nat.zero_le _⟩

/-- Below the limit `_cst_push_atom` appends to the table. -/
theorem cstPushAtom_reads {vec : Svec} {cap : ℕ} {xs : List Span} (h : vec.Reads cap xs)
    (span : Span) (hlt : xs.length < limit cap) :
    ∃ vec', cstPushAtom vec span = some ((xs.length : ℤ), vec') ∧
      vec'.Reads cap (xs ++ [span]) := by
  have hlen := h.len_eq
  have hcap := h.cap_eq
  unfold limit at hlt
  -- there is room, so the table does not grow
  have hgrow : vec.grow = vec := by
    unfold Svec.grow
    rw [if_neg (by omega)]
  have hidx : toInt vec.len = xs.length := by rw [hlen, toInt_of_lt (by omega)]
  have hroom : vec.data.room = cap := by
    unfold Block.room
    rw [h.size_eq]
    omega
  have hwrap : (vec.len + 1) % 2 ^ 64 = vec.len + 1 := Nat.mod_eq_of_lt (by omega)
  rcases Block.write_holds span h.holds (by omega) with ⟨data, hwrite, hsize, hholds⟩
  refine ⟨⟨vec.len + 1, vec.cap, data⟩, ?_, ?_, hcap, hsize.trans h.size_eq, hholds, ?_⟩
  · unfold cstPushAtom
    simp only [hgrow, hidx, Int.toNat_natCast, hwrite, hwrap]
    rw [if_pos (Int.natCast_nonneg _)]
  · rw [List.length_append, List.length_singleton, ← hlen]
  · unfold limit
    rw [List.length_append, List.length_singleton]
    omega

/-- At the limit it writes outside the block: either the table was resized to
fewer bytes than it has entries, or the index is negative. -/
theorem cstPushAtom_limit {vec : Svec} {cap : ℕ} {xs : List Span} (h : vec.Reads cap xs)
    (span : Span) (hlim : xs.length = limit cap) : cstPushAtom vec span = none := by
  have hlen := h.len_eq
  have hcap := h.cap_eq
  have hgrowlen : vec.grow.len = vec.len := by
    unfold Svec.grow
    split <;> rfl
  unfold limit at hlim
  unfold cstPushAtom
  simp only [hgrowlen]
  -- either the index is `2^31`, or the table is full
  by_cases hlarge : 2 ^ 31 ≤ cap
  · have hidx : vec.len = 2 ^ 31 := by omega
    have hneg := toInt_two_pow
    rw [hidx, if_neg (by omega)]
  · have hidx : toInt vec.len = vec.len := toInt_of_lt (by omega)
    have hroom : vec.grow.data.room ≤ vec.len := by
      unfold Svec.grow
      rw [if_pos (by omega)]
      show vec.cap * 2 % 2 ^ 64 / 8 ≤ vec.len
      rw [Nat.mod_eq_of_lt (by omega)]
      omega
    rw [hidx, if_pos (Int.natCast_nonneg _), Int.toNat_natCast, Block.write_eq_none span hroom]

/-! ## All tables -/

/-- Replace the table of a tag. -/
def CST.setTable (cst : CST) (tag : CstTag) (vec : Svec) : CST :=
  match tag with
  | .nil => cst
  | .int => { cst with ints := vec }
  | .sym => { cst with syms := vec }
  | .str => { cst with strs := vec }

theorem table_setTable {cst : CST} {tag : CstTag} (htag : tag ≠ .nil) (vec : Svec) :
    (cst.setTable tag vec).table tag = some vec := by
  cases tag with
  | nil => exact absurd rfl htag
  | int => rfl
  | sym => rfl
  | str => rfl

theorem table_setTable_of_ne {cst : CST} {tag tag' : CstTag} (hne : tag' ≠ tag) (vec : Svec) :
    (cst.setTable tag vec).table tag' = cst.table tag' := by
  cases tag <;> cases tag' <;> first | rfl | exact absurd rfl hne

/-- `cst_make_atom` pushes on the table of the tag. -/
theorem cstMakeAtom_eq (cst : CST) {tag : CstTag} (htag : tag ≠ .nil) (span : Span) :
    ∃ vec, cst.table tag = some vec ∧ cstMakeAtom cst tag span =
      match cstPushAtom vec span with
      | some (idx, vec') => some (⟨tag, idx⟩, cst.setTable tag vec')
      | none => none := by
  cases tag with
  | nil => exact absurd rfl htag
  | int => exact ⟨cst.ints, rfl, rfl⟩
  | sym => exact ⟨cst.syms, rfl, rfl⟩
  | str => exact ⟨cst.strs, rfl, rfl⟩

/-- The spans given with a tag. -/
def entries (tag : CstTag) (calls : List Call) : List Span :=
  (calls.filter fun c => c.tag = tag).map Call.span

theorem entries_append (tag : CstTag) (calls calls' : List Call) :
    entries tag (calls ++ calls') = entries tag calls ++ entries tag calls' := by
  unfold entries
  rw [List.filter_append, List.map_append]

theorem entries_self (c : Call) : entries c.tag [c] = [c.span] := by
  simp [entries]

theorem entries_ne {tag : CstTag} {c : Call} (hne : tag ≠ c.tag) : entries tag [c] = [] := by
  simp [entries, Ne.symm hne]

/-- The tables hold the spans given with their tags, and a node holds the
position of its span. -/
structure Inv (cap : CstTag → ℕ) (log : List (Call × CstNode)) (cst : CST) : Prop where
  table : ∀ tag vec, cst.table tag = some vec →
    vec.Reads (cap tag) (entries tag (log.map Prod.fst))
  node : ∀ x ∈ log, x.1.tag ≠ .nil → x.2.tag = x.1.tag ∧
    ∃ k : ℕ, x.2.idx = k ∧ (entries x.1.tag (log.map Prod.fst))[k]? = some x.1.span

theorem inv_new (cap : CstTag → ℕ) : Inv cap [] (.new cap) := by
  refine ⟨?_, fun x hx => by cases hx⟩
  intro tag vec htable
  cases tag <;> cases htable <;> exact reads_new _

/-- The invariant gives what is asked of the tables. -/
theorem Inv.keeps {cap : CstTag → ℕ} {log : List (Call × CstNode)} {cst : CST}
    (h : Inv cap log cst) : Keeps cst log := by
  constructor
  · intro x hx htag
    rcases h.node x hx htag with ⟨hnode, k, hidx, hk⟩
    rcases cstMakeAtom_eq cst htag x.1.span with ⟨vec, hvec, -⟩
    have hreads := h.table _ _ hvec
    have hlt : k < (entries x.1.tag (log.map Prod.fst)).length :=
      (List.getElem?_eq_some_iff.mp hk).1
    refine ⟨hnode, vec, by rw [hnode, hvec], k, by rw [hreads.len_eq]; exact hlt, hidx, ?_⟩
    rw [hreads.holds k hlt, hk]
  · intro tag vec hvec
    have hreads := h.table _ _ hvec
    have hroom := Block.holds_length_le hreads.holds
    unfold Block.room at hroom
    have := hreads.len_eq
    omega

/-- Step: a call below the limit of its tag keeps the invariant, and the tables
of the other tags. -/
theorem Inv.step {cap : CstTag → ℕ} {log : List (Call × CstNode)} {cst : CST}
    (h : Inv cap log cst) (c : Call)
    (hlt : c.tag ≠ .nil → (entries c.tag (log.map Prod.fst)).length < limit (cap c.tag)) :
    ∃ node cst', cstMakeAtom cst c.tag c.span = some (node, cst') ∧
      Inv cap (log ++ [(c, node)]) cst' ∧ ∀ tag, tag ≠ c.tag → cst'.table tag = cst.table tag := by
  have hcalls : ∀ node : CstNode, (log ++ [(c, node)]).map Prod.fst = log.map Prod.fst ++ [c] :=
    fun node => by simp
  -- the nodes returned before keep their positions
  have hold : ∀ node : CstNode, ∀ x ∈ log, x.1.tag ≠ .nil → x.2.tag = x.1.tag ∧ ∃ k : ℕ,
      x.2.idx = k ∧ (entries x.1.tag ((log ++ [(c, node)]).map Prod.fst))[k]? = some x.1.span := by
    intro node x hx htag
    rcases h.node x hx htag with ⟨hnode, k, hidx, hk⟩
    refine ⟨hnode, k, hidx, ?_⟩
    rw [hcalls, entries_append, List.getElem?_append_left (List.getElem?_eq_some_iff.mp hk).1]
    exact hk
  -- a table of another tag is as before
  have hother : ∀ node : CstNode, ∀ tag vec, tag ≠ c.tag → cst.table tag = some vec →
      vec.Reads (cap tag) (entries tag ((log ++ [(c, node)]).map Prod.fst)) := by
    intro node tag vec hne hvec
    rw [hcalls, entries_append, entries_ne hne, List.append_nil]
    exact h.table tag vec hvec
  -- a `NIL` atom is in no table
  by_cases htag : c.tag = .nil
  · refine ⟨⟨.nil, 0⟩, cst, by rw [htag]; rfl, ⟨?_, ?_⟩, fun _ _ => rfl⟩
    · intro tag vec hvec
      refine hother _ tag vec ?_ hvec
      intro heq
      rw [heq, htag] at hvec
      cases hvec
    · intro x hx hx'
      rcases List.mem_append.mp hx with hx | hx
      · exact hold _ x hx hx'
      · rw [List.mem_singleton.mp hx] at hx'
        exact absurd htag hx'
  · rcases cstMakeAtom_eq cst htag c.span with ⟨vec, hvec, hmake⟩
    rcases cstPushAtom_reads (h.table _ _ hvec) c.span (hlt htag) with ⟨vec', hpush, hreads⟩
    rw [hpush] at hmake
    refine ⟨_, _, hmake, ⟨?_, ?_⟩, fun tag hne => table_setTable_of_ne hne vec'⟩
    · intro tag vec'' hvec''
      by_cases heq : tag = c.tag
      · rw [heq, table_setTable htag] at hvec''
        cases hvec''
        rw [heq, hcalls, entries_append, entries_self]
        exact hreads
      · rw [table_setTable_of_ne heq] at hvec''
        exact hother _ tag vec'' heq hvec''
    · intro x hx hx'
      rcases List.mem_append.mp hx with hx | hx
      · exact hold _ x hx hx'
      · rw [List.mem_singleton.mp hx]
        refine ⟨rfl, _, rfl, ?_⟩
        rw [hcalls, entries_append, entries_self, List.getElem?_concat_length]

/-- Run: the invariant holds in every state reached. A call at the limit of its
tag has no result, so no run gets past it. -/
theorem run_inv {cap : CstTag → ℕ} {log : List (Call × CstNode)} {cst : CST}
    (hrun : Run (.new cap) log cst) : Inv cap log cst := by
  induction hrun with
  | init => exact inv_new cap
  | @call log cst cst' c node hrun hmake ih =>
    have hlt : c.tag ≠ .nil →
        (entries c.tag (log.map Prod.fst)).length < limit (cap c.tag) := by
      intro htag
      rcases cstMakeAtom_eq cst htag c.span with ⟨vec, hvec, hmake'⟩
      have hreads := ih.table _ _ hvec
      -- at the limit the call would have had no result
      by_contra hge
      have hle := hreads.le_limit
      rw [cstPushAtom_limit hreads c.span (by omega)] at hmake'
      rw [hmake'] at hmake
      cases hmake
    rcases ih.step c hlt with ⟨node₁, cst₁, hmake₁, hinv, -⟩
    rw [hmake] at hmake₁
    cases hmake₁
    exact hinv

/-- A node designates one span only. -/
theorem Designates.unique {cst : CST} {node : CstNode} {span span' : Span}
    (h : Designates cst node span) (h' : Designates cst node span') : span = span' := by
  rcases h with ⟨vec, htable, k, -, hidx, hslot⟩
  rcases h' with ⟨vec', htable', k', -, hidx', hslot'⟩
  rw [htable] at htable'
  cases htable'
  have hk : k = k' := by omega
  subst hk
  rw [hslot] at hslot'
  exact Option.some.inj (Option.some.inj hslot')

/-- An atom made in a run designates its span, and its tag was below its
limit. -/
theorem Run.make {cap : CstTag → ℕ} {log : List (Call × CstNode)} {cst cst' : CST}
    (hrun : Run (.new cap) log cst) {c : Call} {node : CstNode} (htag : c.tag ≠ .nil)
    (hmake : cstMakeAtom cst c.tag c.span = some (node, cst')) :
    Designates cst' node c.span ∧
      (entries c.tag (log.map Prod.fst)).length < limit (cap c.tag) := by
  have hinv := run_inv (hrun.call hmake)
  refine ⟨(hinv.keeps.designates (c, node) (List.mem_append_right _ List.mem_cons_self) htag).2, ?_⟩
  rcases cstMakeAtom_eq cst' htag c.span with ⟨vec, hvec, -⟩
  have hle := (hinv.table c.tag vec hvec).le_limit
  rw [List.map_append, entries_append, List.length_append] at hle
  have hone : (entries c.tag [c]).length = 1 := by rw [entries_self, List.length_singleton]
  rw [show List.map Prod.fst [(c, node)] = [c] from rfl, hone] at hle
  omega

/-- Calls within the limits all succeed. -/
theorem run_exists {cap : CstTag → ℕ} (calls : List Call)
    (hlim : ∀ tag, tag ≠ .nil → (entries tag calls).length ≤ limit (cap tag)) :
    ∃ log cst, Run (.new cap) log cst ∧ log.map Prod.fst = calls := by
  induction calls using List.reverseRecOn with
  | nil => exact ⟨[], _, .init, rfl⟩
  | append_singleton calls c ih =>
    have hlim' : ∀ tag, tag ≠ .nil → (entries tag calls).length ≤ limit (cap tag) := by
      intro tag htag
      have := hlim tag htag
      rw [entries_append, List.length_append] at this
      omega
    rcases ih hlim' with ⟨log, cst, hrun, rfl⟩
    obtain ⟨node, cst', hmake, -⟩ := (run_inv hrun).step c fun htag => by
      have := hlim c.tag htag
      rw [entries_append, List.length_append, entries_self, List.length_singleton] at this
      omega
    exact ⟨_, _, hrun.call hmake, by simp⟩

/-- **When the tables keep every atom.** Exactly if no tag is given more atoms
than its table can take without growing (and than there are indices). -/
theorem keepsAll_iff (cap : CstTag → ℕ) (calls : List Call) :
    KeepsAll (.new cap) calls ↔
      ∀ tag, tag ≠ .nil → (entries tag calls).length ≤ min (cap tag) (2 ^ 31) := by
  constructor
  · intro hall tag htag
    rcases List.eq_nil_or_concat calls with rfl | ⟨before, c, rfl⟩
    · exact Nat.zero_le _
    · rw [List.concat_eq_append] at hall ⊢
      rcases hall before c [] rfl with ⟨log, cst, node, cst', hrun, rfl, hmake, -, -⟩
      -- the last call succeeded, so the invariant holds after it, with its bound
      have hinv := run_inv (hrun.call hmake)
      rcases cstMakeAtom_eq cst' htag c.span with ⟨vec, hvec, -⟩
      have hle := (hinv.table tag vec hvec).le_limit
      rwa [List.map_append] at hle
  · rintro hlim before c after rfl
    have hbefore : ∀ tag, tag ≠ .nil →
        (entries tag before).length + (entries tag [c]).length ≤ limit (cap tag) := by
      intro tag htag
      have hle := hlim tag htag
      rw [List.append_cons, entries_append, entries_append, List.length_append,
        List.length_append] at hle
      unfold limit
      omega
    rcases run_exists before fun tag htag => Nat.le_of_add_right_le (hbefore tag htag)
      with ⟨log, cst, hrun, rfl⟩
    obtain ⟨node, cst', hmake, hinv, hsame⟩ := (run_inv hrun).step c fun htag => by
      have := hbefore c.tag htag
      rw [entries_self, List.length_singleton] at this
      omega
    exact ⟨log, cst, node, cst', hrun, rfl, hmake, hinv.keeps, hsame⟩

/-- Two `INT` atoms, where the table has room for one. -/
theorem keepsAll_counterexample :
    ¬ ∀ (cap : CstTag → ℕ) (calls : List Call), (∀ tag, 0 < cap tag) →
      KeepsAll (.new cap) calls := by
  intro hall
  obtain ⟨log, cst, node, cst', hrun, hcalls, hmake, -, -⟩ :=
    hall (fun _ => 1) [⟨.int, ⟨0, 1⟩⟩, ⟨.int, ⟨2, 3⟩⟩] (fun _ => Nat.one_pos)
      [⟨.int, ⟨0, 1⟩⟩] ⟨.int, ⟨2, 3⟩⟩ [] rfl
  rcases cstMakeAtom_eq cst (by decide : CstTag.int ≠ .nil) ⟨2, 3⟩ with ⟨vec, hvec, hmake'⟩
  have hreads := (run_inv hrun).table _ _ hvec
  rw [hcalls] at hreads
  rw [cstPushAtom_limit hreads ⟨2, 3⟩ (by decide)] at hmake'
  rw [hmake'] at hmake
  cases hmake

end Jetlang.Cst
