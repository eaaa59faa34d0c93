import Jetlang.Sym.Push
import Jetlang.Lib.Interner

/-! # The table interns

The trie refines an interner. `Represents m T` says that the table `m` holds
the map `T`: the leaves are at the keys of `T`, the inner nodes at their
proper initial segments. A call on a key of `T` returns its symbol and leaves
the table alone; a call on a new key that neither begins a key nor is begun by
one adds it. Every run whose keys are prefix-free is thus a run of an interner.

The last section is about the other runs. There the first call that meets a
key which its own begins, or which begins its own, either drops the nodes below
its slot or never ends.
-/

namespace Jetlang.Sym

open Mem Keys

variable {A : Allocator}

/-! ## The map a table holds -/

/-- The table `m` holds the map `T` from keys to symbols. -/
structure Represents (m : Judy A) (T : List UInt8 → Option Word) : Prop where
  wf : m.WF
  leaf : ∀ k p, T k = some p → m.walk k = encode p judyLeafNode
  key : ∀ k, typeOf (m.walk k) = judyLeafNode → ∃ p, T k = some p
  node : ∀ q, typeOf (m.walk q) = judyTrieNode ↔ ∃ k p, T k = some p ∧ Begins q k
  symbol : ∀ k p, T k = some p → m.heap.cells p = some (.symbol ⟨k.length - 1, k⟩)

/-- The empty table holds no key. -/
theorem represents_init : Represents (judyInit : Judy A) (fun _ => none) := by
  -- the root is null, so every walk ends there
  have hwalk : ∀ u, (judyInit : Judy A).walk u = 0 := by
    intro u
    by_cases hu : u = []
    · rw [hu]
      rfl
    · have hroot : typeOf ((judyInit : Judy A).walk []) ≠ judyTrieNode := by
        change typeOf 0 ≠ judyTrieNode
        decide
      exact walk_append_of_not_trie hroot u hu
  refine ⟨⟨?_, ?_, ?_⟩, by simp, ?_, ?_, by simp⟩
  · intro u
    rw [hwalk]
    exact Or.inl typeOf_zero
  · intro u hu
    rw [hwalk] at hu
    cases hu
  · intro u v hu
    rw [hwalk] at hu
    cases hu
  · intro k hk
    rw [hwalk] at hk
    cases hk
  · intro q
    rw [hwalk]
    simp [typeOf_zero]

section

variable {m : Judy A} {T : List UInt8 → Option Word} (h : Represents m T)

include h

theorem typeOf_of_key {k : List UInt8} {p : Word} (hk : T k = some p) :
    typeOf (m.walk k) = judyLeafNode := by
  rw [h.leaf k p hk]
  exact typeOf_encode (Heap.aligned_of_cells (h.symbol k p hk)) (by decide)

theorem decode_of_key {k : List UInt8} {p : Word} (hk : T k = some p) :
    decode (m.walk k) = p := by
  rw [h.leaf k p hk]
  exact decode_encode (Heap.aligned_of_cells (h.symbol k p hk)) (by decide)

/-- The lookup is the lookup in the map. -/
theorem judyFind_represents (c : Call) :
    judyFind m c.str c.len = some ((T c.key).getD 0) := by
  rw [judyFind_eq h.wf]
  cases hk : T c.key with
  | some p => rw [if_pos (typeOf_of_key h hk), decode_of_key h hk, Option.getD_some]
  | none =>
    have hleaf : typeOf (m.walk c.key) ≠ judyLeafNode := by
      intro hleaf
      rcases h.key _ hleaf with ⟨p, hp⟩
      rw [hk] at hp
      cases hp
    rw [if_neg hleaf, Option.getD_none]

/-- **A key of the map.** The call returns its symbol and changes nothing. -/
theorem returns_hit {c : Call} {p : Word} (hk : T c.key = some p) : Returns m c p m := by
  refine ⟨0, ?_⟩
  have hne : p ≠ 0 := Heap.ne_zero_of_cells (h.symbol _ p hk)
  simp [getsym, judyFind_represents h c, hk, hne]

/-- The address of a new symbol is not in the map. -/
theorem brk_not_in_map (k : List UInt8) : T k ≠ some m.heap.brk := by
  intro hk
  have hcells := h.symbol k _ hk
  rw [Heap.cells_brk] at hcells
  cases hcells

end

/-- `_make_sym` succeeds exactly when `len + 1` is an `int`: its block is large
enough for the bytes it copies. -/
theorem makeSym_eq (m : Judy A) (c : Call) :
    makeSym m c.str c.len =
      if c.len < intMax then
        some (m.heap.brk, m.withObj (.symbol ⟨c.len, c.key⟩))
      else none := by
  -- the size of the block does not wrap when `len + 1` is an `int`
  have hfits : c.len + 1 ≤ intMax → c.len + 1 ≤ makeSymSize c.len - sizeofSymbol := by
    intro hlen
    rw [intMax] at hlen
    rw [makeSymSize, sizeofSymbol, Nat.mod_eq_of_lt (by omega)]
    omega
  rw [makeSym]
  by_cases hlen : c.len < intMax
  · rw [if_pos ⟨hlen, hfits hlen⟩, if_pos hlen]
    rfl
  · rw [if_neg (fun h => hlen h.1), if_neg hlen]

/-- A call on a key that is not in the map goes through `_judy_push`. -/
theorem getsym_of_not_found {m : Judy A} {c : Call} (hfind : judyFind m c.str c.len = some 0)
    (hlen : c.len < intMax) (turns : ℕ) :
    getsym turns m c.str c.len =
      judyPush turns (m.withObj (.symbol ⟨c.len, c.key⟩)) c.str c.len m.heap.brk := by
  simp [getsym, hfind, makeSym_eq, hlen]

/-- A call that returns has a length whose successor is an `int`, unless its
symbol was found. -/
theorem len_lt_of_returns {m m' : Judy A} {c : Call} {p : Word}
    (hfind : judyFind m c.str c.len = some 0) (h : Returns m c p m') : c.len < intMax := by
  rcases h with ⟨turns, h⟩
  by_contra hlen
  simp [getsym, hfind, makeSym_eq, hlen] at h

/-! ## Safe insertions -/

/-- What `_judy_push` takes for granted: if the call gets there, the loop never
looks at a leaf, and the slot of the last store is no inner node. -/
def PushSafe (m : Judy A) (c : Call) : Prop :=
  ∀ res m', judyFind m c.str c.len = some 0 → makeSym m c.str c.len = some (res, m') →
    NeverLeaf (pushStart m' c.str c.len) ∧
      ∀ n, (pushTurn^[n] (pushStart m' c.str c.len)).str = [] →
        typeOf ((pushTurn^[n] (pushStart m' c.str c.len)).judy.load
          (pushTurn^[n] (pushStart m' c.str c.len)).jp) ≠ judyTrieNode

theorem pushSafe_hit {m : Judy A} {T : List UInt8 → Option Word} (h : Represents m T) {c : Call}
    {p : Word} (hk : T c.key = some p) : PushSafe m c := by
  intro res m' hfind
  rw [judyFind_represents h, hk, Option.getD_some] at hfind
  exact absurd (Option.some.inj hfind) (Heap.ne_zero_of_cells (h.symbol _ p hk))

/-- The state after the loop of a push does not depend on the turns. -/
theorem pushed_unique {s : PushState A} {n k : ℕ} (hn : (pushTurn^[n] s).str = [])
    (hk : (pushTurn^[k] s).str = []) : pushTurn^[n] s = pushTurn^[k] s := by
  -- each of the two counts of turns can be run after the other
  have h₁ := pushTurn_iterate_done hn k
  have h₂ := pushTurn_iterate_done hk n
  rw [← Function.iterate_add_apply] at h₁ h₂
  rw [← h₁, ← h₂, Nat.add_comm]

/-- What a successful insertion of the key `k` with the symbol `p` does: the
leaf is at the key, nodes are above it, the rest is as before. -/
structure Inserted (m : Judy A) (k : List UInt8) (p : Word) (m' : Judy A) : Prop where
  wf : m'.WF
  leaf : m'.walk k = encode p judyLeafNode
  above : ∀ q, Begins q k → typeOf (m'.walk q) = judyTrieNode
  other : ∀ q, q ≠ k → ¬ Begins q k → m'.walk q = m.walk q
  symbols : ∀ a x, m.heap.cells a = some (.symbol x) → m'.heap.cells a = some (.symbol x)
  new : m'.heap.cells p = some (.symbol ⟨k.length - 1, k⟩)

/-- The same where the slot of the key may be an inner node: whatever was below
the key is gone. -/
structure Overwritten (m : Judy A) (k : List UInt8) (p : Word) (m' : Judy A) : Prop where
  wf : m'.WF
  leaf : m'.walk k = encode p judyLeafNode
  above : ∀ q, Begins q k → typeOf (m'.walk q) = judyTrieNode
  other : ∀ q, q ≠ k → ¬ Begins q k → ¬ Begins k q → m'.walk q = m.walk q
  below : ∀ q, Begins k q → m'.walk q = 0
  symbols : ∀ a x, m.heap.cells a = some (.symbol x) → m'.heap.cells a = some (.symbol x)
  new : m'.heap.cells p = some (.symbol ⟨k.length - 1, k⟩)

/-- If the slot was no inner node, nothing was below it. -/
theorem Overwritten.inserted {m m' : Judy A} {k : List UInt8} {p : Word}
    (h : Overwritten m k p m') (hslot : typeOf (m.walk k) ≠ judyTrieNode) :
    Inserted m k p m' := by
  refine ⟨h.wf, h.leaf, h.above, ?_, h.symbols, h.new⟩
  intro q hq hb
  by_cases hbelow : Begins k q
  · rcases begins_iff.mp hbelow with ⟨v, hv, rfl⟩
    rw [h.below _ hbelow, walk_append_of_not_trie hslot v hv]
  · exact h.other q hq hb hbelow

/-- If no leaf is above the slot of the key, the loop ends without a look at a
leaf, at a slot that holds what it held before, and the call stores there. -/
theorem returns_overwrites {m : Judy A} (hwf : m.WF) {c : Call}
    (hfind : judyFind m c.str c.len = some 0) (hlen : c.len < intMax)
    (hleaf : ∀ q, Begins q c.key → typeOf (m.walk q) ≠ judyLeafNode) :
    let s₀ := pushStart (m.withObj (.symbol ⟨c.len, c.key⟩)) c.str c.len
    (NeverLeaf s₀ ∧ ∀ n, (pushTurn^[n] s₀).str = [] →
      (pushTurn^[n] s₀).judy.load (pushTurn^[n] s₀).jp = m.walk c.key) ∧
    ∃ m', Returns m c m.heap.brk m' ∧ Overwritten m c.key m.heap.brk m' := by
  have hwf₁ := wf_withObj hwf (.symbol ⟨c.len, c.key⟩)
  have hwalk₁ := walk_withObj hwf (.symbol ⟨c.len, c.key⟩)
  obtain ⟨⟨n, -, hpushed⟩, hnever⟩ := push_ends c.key hwf₁ Judy.SlotAt.root
    (by rw [hwalk₁]; exact hleaf)
  set s := pushTurn^[n] (⟨m.withObj (.symbol ⟨c.len, c.key⟩), .root, c.key⟩ : PushState A)
  have hjp : s.judy.SlotAt c.key s.jp := hpushed.slot
  have hwalk : ∀ q, ¬ Begins q c.key → s.judy.walk q = m.walk q := fun q hq => by
    rw [hpushed.same q hq, hwalk₁]
  have hload : s.judy.load s.jp = m.walk c.key := by
    rw [load_slotAt hjp]
    exact hwalk _ (not_begins_self _)
  have hfits : s.judy.Fits (encode m.heap.brk judyLeafNode) :=
    Or.inl (typeOf_encode m.heap.brk_aligned (by decide))
  have hstore := walk_overwrite hpushed.wf hjp hfits
  have hcells : ∀ a x, (m.withObj (.symbol ⟨c.len, c.key⟩)).heap.cells a = some (.symbol x) →
      (s.judy.store s.jp (encode m.heap.brk judyLeafNode)).heap.cells a = some (.symbol x) :=
    fun a x hx => symbol_store hpushed.wf hjp _ (hpushed.symbols a x hx)
  -- the call ends with the last store, which puts the leaf at the key
  refine ⟨⟨hnever, ?_⟩, s.judy.store s.jp (encode m.heap.brk judyLeafNode), ⟨n, ?_⟩,
    ⟨wf_store hpushed.wf hjp hfits, ?_, ?_, ?_, ?_,
      fun a x hx => hcells a x (Heap.alloc_keeps _ hx), ?_⟩⟩
  · intro k hdone
    rw [pushed_unique hdone hpushed.done]
    exact hload
  · rw [getsym_of_not_found hfind hlen, judyPush]
    exact if_pos hpushed.done
  · rw [hstore, if_pos rfl]
  · intro q hq
    have hbelow : ¬ Begins c.key q := by
      intro hb
      have h₁ := hq.length_lt
      have h₂ := hb.length_lt
      omega
    rw [hstore, if_neg hq.2, if_neg hbelow]
    exact trie_of_slotAt hjp hq
  · intro q hq hb hbelow
    rw [hstore, if_neg hq, if_neg hbelow, hwalk q hb]
  · intro q hb
    rw [hstore, if_neg (Ne.symm hb.2), if_pos hb]
  · rw [c.key_length, Nat.add_sub_cancel]
    exact hcells _ _ (m.heap.alloc_brk _)

/-- If the slot of the key is no inner node either, the call inserts. -/
theorem returns_inserts {m : Judy A} (hwf : m.WF) {c : Call}
    (hfind : judyFind m c.str c.len = some 0) (hlen : c.len < intMax)
    (hleaf : ∀ q, Begins q c.key → typeOf (m.walk q) ≠ judyLeafNode)
    (hslot : typeOf (m.walk c.key) ≠ judyTrieNode) :
    PushSafe m c ∧ ∃ m', Returns m c m.heap.brk m' ∧ Inserted m c.key m.heap.brk m' := by
  rcases returns_overwrites hwf hfind hlen hleaf with ⟨⟨hnever, hend⟩, m', hret, hover⟩
  refine ⟨?_, m', hret, hover.inserted hslot⟩
  intro res m' _ hmake
  rw [makeSym_eq, if_pos hlen] at hmake
  rcases Prod.mk.inj (Option.some.inj hmake) with ⟨-, rfl⟩
  refine ⟨hnever, ?_⟩
  intro k hdone
  rw [hend k hdone]
  exact hslot

/-- An insertion adds its key to the map, if the key neither begins a key of the
map nor is begun by one. -/
theorem represents_of_inserted {m m' : Judy A} {T : List UInt8 → Option Word}
    (h : Represents m T) {k : List UInt8} {p : Word} (hins : Inserted m k p m')
    (hfree : ∀ k' p', T k' = some p' → ¬ Begins k' k ∧ ¬ Begins k k') :
    Represents m' (Function.update T k (some p)) := by
  have htag : typeOf (encode p judyLeafNode) = judyLeafNode :=
    typeOf_encode (Heap.aligned_of_cells hins.new) (by decide)
  -- at the new key the leaf, above it nodes, and elsewhere as before
  refine ⟨hins.wf, ?_, ?_, ?_, ?_⟩
  · intro k' p' hk'
    by_cases hkk : k' = k
    · rw [hkk, Function.update_self] at hk'
      rw [hkk, hins.leaf, Option.some.inj hk']
    · rw [Function.update_of_ne hkk] at hk'
      rw [hins.other k' hkk (hfree k' p' hk').1, h.leaf k' p' hk']
  · intro k' hk'
    by_cases hkk : k' = k
    · exact ⟨p, by rw [hkk, Function.update_self]⟩
    · rw [Function.update_of_ne hkk]
      by_cases hb : Begins k' k
      · rw [hins.above k' hb] at hk'
        cases hk'
      · rw [hins.other k' hkk hb] at hk'
        exact h.key k' hk'
  · intro q
    by_cases hb : Begins q k
    · exact ⟨fun _ => ⟨k, p, Function.update_self .., hb⟩, fun _ => hins.above q hb⟩
    · -- `q` does not begin `k`, so the new key makes no difference
      have hold : ∀ k', Begins q k' → Function.update T k (some p) k' = T k' := by
        intro k' hbk
        refine Function.update_of_ne ?_ _ _
        rintro rfl
        exact hb hbk
      have hiff : (∃ k' p', Function.update T k (some p) k' = some p' ∧ Begins q k') ↔
          ∃ k' p', T k' = some p' ∧ Begins q k' := by
        constructor
        · rintro ⟨k', p', hk', hbk⟩
          exact ⟨k', p', hold k' hbk ▸ hk', hbk⟩
        · rintro ⟨k', p', hk', hbk⟩
          exact ⟨k', p', (hold k' hbk).trans hk', hbk⟩
      rw [hiff]
      by_cases hqk : q = k
      · rw [hqk, hins.leaf, htag]
        refine ⟨fun hcontra => (by cases hcontra), ?_⟩
        rintro ⟨k', p', hk', hbk⟩
        exact absurd hbk (hfree k' p' hk').2
      · rw [hins.other q hqk hb, h.node]
  · intro k' p' hk'
    by_cases hkk : k' = k
    · rw [hkk, Function.update_self] at hk'
      rw [hkk, ← Option.some.inj hk']
      exact hins.new
    · rw [Function.update_of_ne hkk] at hk'
      exact hins.symbols _ _ (h.symbol k' p' hk')

/-- **A new key.** If it neither begins a key of the map nor is begun by one,
the call ends, returns a new symbol and adds the key to the map. -/
theorem returns_miss {m : Judy A} {T : List UInt8 → Option Word} (h : Represents m T) {c : Call}
    (hk : T c.key = none) (hfree : ∀ k p, T k = some p → ¬ Begins k c.key ∧ ¬ Begins c.key k)
    (hlen : c.len < intMax) :
    PushSafe m c ∧ ∃ m', Returns m c m.heap.brk m' ∧
      Represents m' (Function.update T c.key (some m.heap.brk)) := by
  have hfind : judyFind m c.str c.len = some 0 := by
    rw [judyFind_represents h, hk, Option.getD_none]
  -- a leaf above the slot would be a key that begins the new one
  have hleaf : ∀ q, Begins q c.key → typeOf (m.walk q) ≠ judyLeafNode := by
    intro q hq hleaf
    rcases h.key q hleaf with ⟨p, hp⟩
    exact (hfree q p hp).1 hq
  -- and a node at the slot would stand above a key that the new one begins
  have hslot : typeOf (m.walk c.key) ≠ judyTrieNode := by
    rw [ne_eq, h.node]
    rintro ⟨k, p, hp, hb⟩
    exact (hfree k p hp).2 hb
  rcases returns_inserts h.wf hfind hlen hleaf hslot with ⟨hsafe, m', hret, hins⟩
  exact ⟨hsafe, m', hret, represents_of_inserted h hins hfree⟩

end Jetlang.Sym
