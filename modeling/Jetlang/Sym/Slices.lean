import Jetlang.Sym.Runs

/-! # Names inside a longer text

A call reads its `len` bytes and the byte behind them, and takes all of them for
the name. On the table of a run of plain strings, two calls on the same bytes
therefore give one symbol exactly if the same byte follows. A byte that is not
zero may lead to an inner node, which is then replaced; that the call ends does
not depend on it.
-/

namespace Jetlang.Sym

open Mem Keys

variable {A : Allocator} {m : Judy A} {T : List UInt8 → Option Word} {c d : Call} {p : Word}
  {u : List UInt8} {x y : UInt8}

/-! ## The keys -/

/-- Every key of the map is closed by its only zero byte. -/
def Terminated (T : List UInt8 → Option Word) : Prop :=
  ∀ k p, T k = some p → ∃ u, (0 : UInt8) ∉ u ∧ k = u ++ [0]

/-- The table of a run of plain strings holds a map of terminated keys. -/
theorem terminated_of_run {log : List (Call × Word)} (hrun : Run A log m)
    (hplain : ∀ x ∈ log, x.1.Plain) :
    ∃ T, Interner.Runs (keyLog log) T ∧ Represents m T ∧ Terminated T := by
  have hcalls : ∀ c ∈ log.map Prod.fst, c.Plain := by
    intro c hc
    rcases List.mem_map.mp hc with ⟨x, hx, rfl⟩
    exact hplain x hx
  rcases run_refines hrun (prefixFree_of_plain hcalls) with ⟨T, hruns, h⟩
  refine ⟨T, hruns, h, ?_⟩
  intro k p hk
  rcases List.mem_map.mp (mem_keys_of_find hruns hk) with ⟨c, hc, rfl⟩
  exact ⟨c.bytes, (hcalls c hc).inner, (hcalls c hc).key_eq⟩

/-- The byte behind the name. -/
def Call.behind (c : Call) : UInt8 := c.str.get ⟨c.len, c.readable⟩

/-- The key of a call: its bytes, and the one behind them. -/
theorem Call.key_eq_snoc (c : Call) : c.key = c.bytes ++ [c.behind] := by
  have hbehind : c.str[c.len]? = some c.behind := List.getElem?_eq_getElem c.readable
  rw [key, bytes, List.take_add_one, hbehind, Option.toList_some]

/-- What begins a key is within its bytes. -/
theorem begins_snoc {q : List UInt8} : Begins q (u ++ [x]) ↔ q <+: u := by
  constructor
  · intro h
    have hlen := h.length_lt
    rw [List.length_append, List.length_singleton] at hlen
    exact List.prefix_of_prefix_length_le h.1 (List.prefix_append u [x]) (by omega)
  · rintro ⟨v, rfl⟩
    refine ⟨⟨v ++ [x], by rw [List.append_assoc]⟩, ?_⟩
    intro heq
    have hlen := congrArg List.length heq
    simp only [List.length_append, List.length_singleton] at hlen
    omega

/-- Above a key without an inner zero byte there is no leaf. -/
theorem no_leaf_above (h : Represents m T) (hterm : Terminated T) (hu : (0 : UInt8) ∉ u)
    {q : List UInt8} (hq : q <+: u) : typeOf (m.walk q) ≠ judyLeafNode := by
  intro hleaf
  rcases h.key q hleaf with ⟨p, hp⟩
  rcases hterm q p hp with ⟨v, -, rfl⟩
  exact hu (hq.subset (List.mem_append_right v List.mem_cons_self))

/-! ## The calls -/

/-- A leaf at the key is found. -/
theorem returns_of_leaf (hwf : m.WF) {s : Symbol} (hleaf : m.walk c.key = encode p judyLeafNode)
    (hcell : m.heap.cells p = some (.symbol s)) : Returns m c p m := by
  have haligned := Heap.aligned_of_cells hcell
  have htag : typeOf (m.walk c.key) = judyLeafNode := by
    rw [hleaf]
    exact typeOf_encode haligned (by decide)
  have hfind : judyFind m c.str c.len = some p := by
    rw [judyFind_eq hwf, if_pos htag, hleaf, decode_encode haligned (by decide)]
  refine ⟨0, ?_⟩
  unfold getsym
  rw [hfind]
  exact if_pos (Heap.ne_zero_of_cells hcell)

/-- The table after the first call: the leaf is at its key, with nodes above it,
and elsewhere it is as before. -/
structure Entered (m : Judy A) (T : List UInt8 → Option Word) (k : List UInt8) (p : Word)
    (m₁ : Judy A) : Prop where
  wf : m₁.WF
  leaf : m₁.walk k = encode p judyLeafNode
  above : ∀ q, Begins q k → typeOf (m₁.walk q) = judyTrieNode
  other : ∀ q, q ≠ k → ¬ Begins q k → ¬ Begins k q → m₁.walk q = m.walk q
  symbols : ∀ a s, m.heap.cells a = some (.symbol s) → m₁.heap.cells a = some (.symbol s)
  cell : ∃ s, m₁.heap.cells p = some (.symbol s)
  origin : T k = some p ∨ p = m.heap.brk

/-- The first call ends. -/
theorem returns_slice (h : Represents m T) (hterm : Terminated T) (hinner : (0 : UInt8) ∉ c.bytes)
    (hshort : c.len < intMax) : ∃ p m₁, Returns m c p m₁ ∧ Entered m T c.key p m₁ := by
  have hleaf : ∀ q, Begins q c.key → typeOf (m.walk q) ≠ judyLeafNode := by
    intro q hq
    rw [c.key_eq_snoc, begins_snoc] at hq
    exact no_leaf_above h hterm hinner hq
  cases hk : T c.key with
  | some p =>
    refine ⟨p, m, returns_hit h hk, h.wf, h.leaf _ p hk, ?_, fun q _ _ _ => rfl,
      fun _ _ hs => hs, ⟨_, h.symbol _ p hk⟩, Or.inl hk⟩
    intro q hq
    exact (h.node q).mpr ⟨c.key, p, hk, hq⟩
  | none =>
    have hfind : judyFind m c.str c.len = some 0 := by
      rw [judyFind_represents h, hk, Option.getD_none]
    rcases returns_overwrites h.wf hfind hshort hleaf with ⟨-, m₁, hret, hover⟩
    exact ⟨m.heap.brk, m₁, hret, hover.wf, hover.leaf, hover.above, hover.other, hover.symbols,
      ⟨_, hover.new⟩, Or.inr rfl⟩

/-- A second call with the same key gives the same symbol. -/
theorem returns_slice_again {m₁ : Judy A} (he : Entered m T c.key p m₁) (hkey : d.key = c.key) :
    Returns m₁ d p m₁ := by
  rcases he.cell with ⟨s, hs⟩
  exact returns_of_leaf he.wf (by rw [hkey]; exact he.leaf) hs

/-- A second call with another byte behind the same bytes gives another symbol,
found or new. -/
theorem returns_slice_other {log : List (Call × Word)} (hruns : Interner.Runs (keyLog log) T)
    (h : Represents m T) {m₁ : Judy A} (he : Entered m T (u ++ [x]) p m₁)
    (hkey : d.key = u ++ [y]) (hxy : y ≠ x) (hshort : d.len < intMax) :
    ∃ q m₂, Returns m₁ d q m₂ ∧ p ≠ q := by
  have hne : u ++ [y] ≠ u ++ [x] := by
    intro heq
    exact hxy (List.cons.inj (List.append_cancel_left heq)).1
  have hnot : ∀ {a b : UInt8}, ¬ Begins (u ++ [a]) (u ++ [b]) := by
    intro a b hb
    have hlen := hb.length_lt
    simp only [List.length_append, List.length_singleton] at hlen
    omega
  -- the first call has not touched the slot of the second key
  have hwalk : m₁.walk (u ++ [y]) = m.walk (u ++ [y]) := he.other _ hne hnot hnot
  by_cases hleaf : typeOf (m.walk (u ++ [y])) = judyLeafNode
  · rcases h.key _ hleaf with ⟨q, hq⟩
    have hcell := he.symbols _ _ (h.symbol _ q hq)
    refine ⟨q, m₁, returns_of_leaf he.wf ?_ hcell, ?_⟩
    · rw [hkey, hwalk, h.leaf _ q hq]
    · rintro rfl
      rcases he.origin with hp | hp
      · exact hne (Interner.injective hruns hq hp)
      · rw [hp] at hq
        exact brk_not_in_map h _ hq
  · have hfind : judyFind m₁ d.str d.len = some 0 := by
      rw [judyFind_eq he.wf, hkey, hwalk, if_neg hleaf]
    have habove : ∀ q, Begins q d.key → typeOf (m₁.walk q) ≠ judyLeafNode := by
      intro q hq
      rw [hkey, begins_snoc] at hq
      rw [he.above q (begins_snoc.mpr hq)]
      decide
    rcases returns_overwrites he.wf hfind hshort habove with ⟨-, m₂, hret, -⟩
    rcases he.cell with ⟨s, hs⟩
    exact ⟨_, m₂, hret, Heap.ne_brk hs⟩

/-- **A name in a longer text.** In every state that calls on plain strings
reach, two calls on the same bytes, without a zero byte among them, both end,
and they return the same symbol exactly if the same byte follows. -/
theorem slices_agree {log : List (Call × Word)} (hrun : Run A log m)
    (hplain : ∀ x ∈ log, x.1.Plain) (c d : Call) (hlen : d.len = c.len)
    (hbytes : d.bytes = c.bytes) (hinner : (0 : UInt8) ∉ c.bytes) (hshort : c.len < 2 ^ 31 - 1) :
    ∃ p m₁ q m₂, Returns m c p m₁ ∧ Returns m₁ d q m₂ ∧ (p = q ↔ c.behind = d.behind) := by
  rcases terminated_of_run hrun hplain with ⟨T, hruns, h, hterm⟩
  rcases returns_slice h hterm hinner hshort with ⟨p, m₁, hret, he⟩
  have hc := c.key_eq_snoc
  have hd := d.key_eq_snoc
  rw [hbytes] at hd
  by_cases heq : d.behind = c.behind
  · rw [heq, ← hc] at hd
    exact ⟨p, m₁, p, m₁, hret, returns_slice_again he hd, fun _ => heq.symm, fun _ => rfl⟩
  · rw [hc] at he
    rcases returns_slice_other hruns h he hd heq (by rw [hlen]; exact hshort)
      with ⟨q, m₂, hret', hne⟩
    exact ⟨p, m₁, q, m₂, hret, hret', fun hpq => absurd hpq hne, fun hb => absurd hb.symm heq⟩

/-- After a run that has interned `abc`, the name `ab` at its start and `ab` on its own. -/
theorem slices_agree_two :
    ∃ r m p m₁ q m₂,
      Returns (judyInit : Judy Allocator.consecutive) ⟨[97, 98, 99, 0], 3, by decide⟩ r m ∧
        Returns m ⟨[97, 98, 99, 0], 2, by decide⟩ p m₁ ∧
          Returns m₁ ⟨[97, 98, 0], 2, by decide⟩ q m₂ ∧ (p = q ↔ (99 : UInt8) = 0) := by
  have hnone : ∀ x ∈ ([] : List (Call × Word)), x.1.Plain := fun x hx => by cases hx
  rcases terminated_of_run (A := Allocator.consecutive) .init hnone with ⟨T, -, h, hterm⟩
  obtain ⟨r, m, hret, -⟩ := returns_slice (c := ⟨[97, 98, 99, 0], 3, by decide⟩) h hterm
    (by decide) (by decide)
  have hcall : (⟨[97, 98, 99, 0], 3, by decide⟩ : Call).Plain := ⟨by decide, rfl, by decide⟩
  have hplain : ∀ x ∈ [] ++ [((⟨[97, 98, 99, 0], 3, by decide⟩ : Call), r)], x.1.Plain := by
    intro x hx
    rw [List.nil_append, List.mem_singleton] at hx
    rw [hx]
    exact hcall
  rcases slices_agree (.call .init hret) hplain ⟨[97, 98, 99, 0], 2, by decide⟩
    ⟨[97, 98, 0], 2, by decide⟩ rfl rfl (by decide) (by decide) with ⟨p, m₁, q, m₂, hslices⟩
  exact ⟨r, m, p, m₁, q, m₂, hret, hslices⟩

/-- The name `a` on its own, and at the start of `ab`: not one symbol. -/
theorem slices_agree_counterexample :
    ¬ ∃ p m₁ m₂, Returns (judyInit : Judy Allocator.consecutive) ⟨[97, 0], 1, by decide⟩ p m₁ ∧
      Returns m₁ ⟨[97, 98], 1, by decide⟩ p m₂ := by
  rintro ⟨p, m₁, m₂, hp, hq⟩
  have hplain : ∀ x ∈ ([] : List (Call × Word)), x.1.Plain := fun x hx => by cases hx
  rcases terminated_of_run (A := Allocator.consecutive) .init hplain with ⟨T, hruns, h, hterm⟩
  obtain ⟨p', m₁', hret, he⟩ := returns_slice (c := ⟨[97, 0], 1, by decide⟩) h hterm
    (by decide) (by decide)
  rcases returns_unique hp hret with ⟨rfl, rfl⟩
  obtain ⟨q, m₂', hret', hne⟩ := returns_slice_other (d := ⟨[97, 98], 1, by decide⟩) (u := [97])
    hruns h he rfl (by decide) (by decide)
  exact hne (returns_unique hq hret').1

end Jetlang.Sym
