import Jetlang.Sym.Judy
import Jetlang.Lib.PrefixFree

/-! # The table as a map from paths

Following the bytes of a path from the root ends at a slot; `walk` is the word
in it. On a table whose inner nodes each stand at one path only (`WF`), the
lookup reads `walk` at the key, and a store to a slot that is not an inner
node changes `walk` at the path of this slot and nowhere else.
-/

namespace Jetlang.Sym

open Mem Keys

variable {A : Allocator}

/-- The word in the slot that byte `c` selects behind the word `w`; behind a
word that is no inner node there is none. -/
def Judy.next (m : Judy A) (w : Word) (c : UInt8) : Word :=
  if typeOf w = judyTrieNode then m.vec (decode w) c else 0

/-- The word in the slot at a path. -/
def Judy.walk (m : Judy A) (path : List UInt8) : Word := path.foldl m.next m.root

/-- The structure of a table: every word is null, a leaf or an inner node,
inner nodes point at nodes, and no two paths lead to one node. -/
structure Judy.WF (m : Judy A) : Prop where
  tags : ∀ u, typeOf (m.walk u) = judyNullNode ∨ typeOf (m.walk u) = judyLeafNode ∨
    typeOf (m.walk u) = judyTrieNode
  node : ∀ u, typeOf (m.walk u) = judyTrieNode →
    ∃ n, m.heap.cells (decode (m.walk u)) = some (.trieNode n)
  inj : ∀ u v, typeOf (m.walk u) = judyTrieNode → m.walk u = m.walk v → u = v

/-- The slot at the path `u` is `jp`. -/
inductive Judy.SlotAt (m : Judy A) : List UInt8 → Slot → Prop where
  | root : m.SlotAt [] .root
  | vec {u : List UInt8} {c : UInt8} (h : typeOf (m.walk u) = judyTrieNode) :
      m.SlotAt (u ++ [c]) (.vec (decode (m.walk u)) c)

/-! ## Walking -/

@[simp] theorem walk_snoc (m : Judy A) (u : List UInt8) (c : UInt8) :
    m.walk (u ++ [c]) = m.next (m.walk u) c := by
  simp [Judy.walk]

theorem next_of_not_trie (m : Judy A) {w : Word} (hw : typeOf w ≠ judyTrieNode) (c : UInt8) :
    m.next w c = 0 := by
  simp [Judy.next, hw]

theorem next_of_trie (m : Judy A) {w : Word} (hw : typeOf w = judyTrieNode) (c : UInt8) :
    m.next w c = m.vec (decode w) c := by
  simp [Judy.next, hw]

/-- Below a word that is no inner node every slot is null. -/
theorem walk_append_of_not_trie {m : Judy A} {u : List UInt8}
    (hu : typeOf (m.walk u) ≠ judyTrieNode) : ∀ v, v ≠ [] → m.walk (u ++ v) = 0 := by
  intro v
  induction v using List.reverseRecOn with
  | nil => simp
  | append_singleton v c ih =>
    intro _
    rw [← List.append_assoc, walk_snoc]
    -- the first byte leaves the trie, and the null word there has no slots
    by_cases hv : v = []
    · subst hv
      rw [List.append_nil, next_of_not_trie m hu]
    · rw [ih hv, next_of_not_trie m (by rw [typeOf_zero]; decide)]

/-- Above a slot that is not null there are inner nodes only. -/
theorem trie_of_begins {m : Judy A} {u v : List UInt8} (h : Begins u v)
    (hv : typeOf (m.walk v) ≠ judyNullNode) : typeOf (m.walk u) = judyTrieNode := by
  by_contra hu
  rcases begins_iff.mp h with ⟨w, hw, rfl⟩
  exact hv (by rw [walk_append_of_not_trie hu w hw, typeOf_zero])

theorem load_slotAt {m : Judy A} {u : List UInt8} {jp : Slot} (h : m.SlotAt u jp) :
    m.load jp = m.walk u := by
  cases h with
  | root => rfl
  | vec hu => rw [walk_snoc, next_of_trie m hu, Judy.load]

/-- The lookup reads the word at the path of its key. -/
theorem judyFindLoop_eq {m : Judy A} (hwf : m.WF) (u v : List UInt8) :
    judyFindLoop m (m.walk u) v =
      some (if typeOf (m.walk (u ++ v)) = judyLeafNode then decode (m.walk (u ++ v)) else 0) := by
  induction v generalizing u with
  | nil => rw [judyFindLoop, List.append_nil]
  | cons c v ih =>
    rw [judyFindLoop]
    by_cases ht : typeOf (m.walk u) = judyTrieNode
    · have hne : ¬ (typeOf (m.walk u) = judyNullNode ∨ typeOf (m.walk u) = judyLeafNode) := by
        rw [ht]
        decide
      rw [if_neg hne, if_pos ht, ← next_of_trie m ht, ← walk_snoc, ih, List.append_assoc,
        List.singleton_append]
    · -- the loop returns `NULL`, and the path leaves the trie here
      have hstop : typeOf (m.walk u) = judyNullNode ∨ typeOf (m.walk u) = judyLeafNode := by
        rcases hwf.tags u with h | h | h
        · exact Or.inl h
        · exact Or.inr h
        · exact absurd h ht
      have hnull : typeOf (m.walk (u ++ c :: v)) ≠ judyLeafNode := by
        rw [walk_append_of_not_trie ht _ (by simp), typeOf_zero]
        decide
      rw [if_pos hstop, if_neg hnull]

theorem judyFind_eq {m : Judy A} (hwf : m.WF) (c : Call) :
    judyFind m c.str c.len =
      some (if typeOf (m.walk c.key) = judyLeafNode then decode (m.walk c.key) else 0) :=
  judyFindLoop_eq hwf [] c.key

/-! ## Allocating and storing -/

/-- The table with a new object in its heap. -/
def Judy.withObj (m : Judy A) (x : Obj) : Judy A := { m with heap := m.heap.alloc x }

/-- Words that may be stored in a slot: a leaf, or a node that is zeroed and not
yet in the table. -/
def Judy.Fits (m : Judy A) (w : Word) : Prop :=
  typeOf w = judyLeafNode ∨
    (typeOf w = judyTrieNode ∧ m.heap.cells (decode w) = some (.trieNode ⟨fun _ => 0⟩) ∧
      ∀ u, m.walk u ≠ w)

theorem vec_of_cells {m : Judy A} {a : Word} {n : JudyTrieNode}
    (h : m.heap.cells a = some (.trieNode n)) : m.vec a = n.vec := by
  simp [Judy.vec, h]

theorem symbol_of_cells {m : Judy A} {a : Word} {s : Symbol}
    (h : m.heap.cells a = some (.symbol s)) : m.symbol a = some s := by
  simp [Judy.symbol, h]

/-- An allocation is not seen by any walk. -/
theorem walk_withObj {m : Judy A} (hwf : m.WF) (x : Obj) : (m.withObj x).walk = m.walk := by
  funext u
  induction u using List.reverseRecOn with
  | nil => rfl
  | append_singleton u c ih =>
    rw [walk_snoc, walk_snoc, ih]
    -- a node of the table has a block already, and keeps it
    by_cases ht : typeOf (m.walk u) = judyTrieNode
    · rcases hwf.node u ht with ⟨n, hn⟩
      rw [next_of_trie _ ht, next_of_trie _ ht, vec_of_cells hn,
        vec_of_cells (m := m.withObj x) (Heap.alloc_keeps x hn)]
    · rw [next_of_not_trie _ ht, next_of_not_trie _ ht]

theorem wf_withObj {m : Judy A} (hwf : m.WF) (x : Obj) : (m.withObj x).WF where
  tags u := by
    rw [walk_withObj hwf]
    exact hwf.tags u
  node u hu := by
    rw [walk_withObj hwf] at hu ⊢
    rcases hwf.node u hu with ⟨n, hn⟩
    exact ⟨n, Heap.alloc_keeps x hn⟩
  inj u v := by
    rw [walk_withObj hwf]
    exact hwf.inj u v

theorem slotAt_withObj {m : Judy A} (hwf : m.WF) (x : Obj) {u : List UInt8} {jp : Slot}
    (h : m.SlotAt u jp) : (m.withObj x).SlotAt u jp := by
  cases h with
  | root => exact .root
  | @vec u c hu =>
    rw [← walk_withObj hwf x] at hu ⊢
    exact .vec hu

/-- The address of an inner node determines its path. -/
theorem path_of_decode {m : Judy A} (hwf : m.WF) {u v : List UInt8}
    (hu : typeOf (m.walk u) = judyTrieNode) (hv : typeOf (m.walk v) = judyTrieNode)
    (h : decode (m.walk u) = decode (m.walk v)) : u = v :=
  hwf.inj u v hu (word_ext (hu.trans hv.symm) h)

/-- A store changes one slot of one node. -/
theorem vec_store {m : Judy A} (hwf : m.WF) {u : List UInt8} {jp : Slot} (h : m.SlotAt u jp)
    (w : Word) {v : List UInt8} (hv : typeOf (m.walk v) = judyTrieNode) (d : UInt8) :
    (m.store jp w).vec (decode (m.walk v)) d =
      if v ++ [d] = u then w else m.vec (decode (m.walk v)) d := by
  cases h with
  | root =>
    rw [if_neg (by simp)]
    rfl
  | @vec u c hu =>
    rcases hwf.node v hv with ⟨n, hn⟩
    -- the slot is in the node at `v`, or in another one at another address
    by_cases huv : v = u
    · subst huv
      have hcells := Heap.write_same (h := m.heap)
        (.trieNode ⟨Function.update (m.vec (decode (m.walk v))) c w⟩) hn
      rw [vec_of_cells (m := m.store (.vec (decode (m.walk v)) c) w) hcells]
      simp [Function.update_apply]
    · have hne : decode (m.walk v) ≠ decode (m.walk u) := fun h => huv (path_of_decode hwf hv hu h)
      have hcells : (m.store (.vec (decode (m.walk u)) c) w).heap.cells (decode (m.walk v)) =
          some (.trieNode n) := by
        rw [← hn]
        exact Heap.write_ne _ _ hne
      have happ : v ++ [d] ≠ u ++ [c] := fun h => huv (List.append_inj_left' h rfl)
      rw [vec_of_cells hcells, vec_of_cells hn, if_neg happ]

/-- A store keeps the nodes nodes. -/
theorem node_store {m : Judy A} {u : List UInt8} {jp : Slot} (h : m.SlotAt u jp)
    (w : Word) {a : Word} {n : JudyTrieNode} (hn : m.heap.cells a = some (.trieNode n)) :
    ∃ n', (m.store jp w).heap.cells a = some (.trieNode n') := by
  cases h with
  | root => exact ⟨n, hn⟩
  | @vec u c hu =>
    by_cases ha : a = decode (m.walk u)
    · subst ha
      exact ⟨_, Heap.write_same _ hn⟩
    · exact ⟨n, (Heap.write_ne _ _ ha).trans hn⟩

/-- A store keeps every symbol. -/
theorem symbol_store {m : Judy A} (hwf : m.WF) {u : List UInt8} {jp : Slot} (h : m.SlotAt u jp)
    (w : Word) {a : Word} {s : Symbol} (hs : m.heap.cells a = some (.symbol s)) :
    (m.store jp w).heap.cells a = some (.symbol s) := by
  cases h with
  | root => exact hs
  | @vec u c hu =>
    have ha : a ≠ decode (m.walk u) := by
      rintro rfl
      rcases hwf.node u hu with ⟨n, hn⟩
      rw [hn] at hs
      cases hs
    exact (Heap.write_ne _ _ ha).trans hs

/-- The slots behind a word that fits are null. -/
theorem next_store_of_fits {m : Judy A} {u : List UInt8} {jp : Slot}
    (h : m.SlotAt u jp) {w : Word} (hw : m.Fits w) (d : UInt8) : (m.store jp w).next w d = 0 := by
  rcases hw with hleaf | ⟨htrie, hzero, hfresh⟩
  · exact next_of_not_trie _ (by rw [hleaf]; decide) d
  · -- the store goes to another node: the new one is at no path
    have hcells : (m.store jp w).heap.cells (decode w) = some (.trieNode ⟨fun _ => 0⟩) := by
      cases h with
      | root => exact hzero
      | @vec u c hu =>
        have hne : decode w ≠ decode (m.walk u) := fun h =>
          hfresh u (word_ext (hu.trans htrie.symm) h.symm)
        exact (Heap.write_ne _ _ hne).trans hzero
    rw [next_of_trie _ htrie, vec_of_cells hcells]

/-- **What a store does.** The word is at the path of the slot, below it every
slot is null, and elsewhere the walk is as before. -/
theorem walk_overwrite {m : Judy A} (hwf : m.WF) {u : List UInt8} {jp : Slot}
    (h : m.SlotAt u jp) {w : Word} (hw : m.Fits w) (q : List UInt8) :
    (m.store jp w).walk q = if q = u then w else if Begins u q then 0 else m.walk q := by
  induction q using List.reverseRecOn with
  | nil =>
    cases h with
    | root => exact (if_pos rfl).symm
    | @vec u c _ =>
      have hnil : ¬ Begins (u ++ [c]) [] := fun hb => by
        have := hb.length_lt
        simp at this
      rw [if_neg (by simp), if_neg hnil]
      rfl
  | append_singleton q d ih =>
    rw [walk_snoc, ih]
    by_cases hq : q = u
    · -- just below the slot
      subst hq
      rw [if_pos rfl, next_store_of_fits h hw, if_neg (by simp), if_pos (begins_append_cons q d [])]
    · rw [if_neg hq]
      by_cases hb : Begins u q
      · -- further below it
        have hlen := hb.length_lt
        have hne : q ++ [d] ≠ u := by
          rintro rfl
          rw [List.length_append] at hlen
          omega
        have hbd : Begins u (q ++ [d]) := ⟨hb.1.trans (List.prefix_append q [d]), hne.symm⟩
        rw [if_pos hb, next_of_not_trie _ (by rw [typeOf_zero]; decide), if_neg hne, if_pos hbd]
      · rw [if_neg hb]
        have hnot : q ++ [d] ≠ u → ¬ Begins u (q ++ [d]) := by
          intro hne hbd
          have hlen := hbd.length_lt
          rw [List.length_append, List.length_singleton] at hlen
          have hle : u <+: q :=
            List.prefix_of_prefix_length_le hbd.1 (List.prefix_append q [d]) (by omega)
          exact hb ⟨hle, Ne.symm hq⟩
        by_cases ht : typeOf (m.walk q) = judyTrieNode
        · rw [next_of_trie _ ht, vec_store hwf h w ht]
          by_cases hqd : q ++ [d] = u
          · rw [if_pos hqd, if_pos hqd]
          · rw [if_neg hqd, if_neg hqd, if_neg (hnot hqd), walk_snoc, next_of_trie _ ht]
        · -- the slot is in a node, and there is none at `q`
          have hne : q ++ [d] ≠ u := by
            rintro rfl
            generalize hqd : q ++ [d] = r at h
            cases h with
            | root => simp at hqd
            | vec hu' => exact ht ((List.append_inj_left' hqd rfl) ▸ hu')
          rw [next_of_not_trie _ ht, if_neg hne, if_neg (hnot hne), walk_snoc,
            next_of_not_trie _ ht]

/-- **A store is a point update**, if the slot is not an inner node: nothing is
below it. -/
theorem walk_store {m : Judy A} (hwf : m.WF) {u : List UInt8} {jp : Slot} (h : m.SlotAt u jp)
    {w : Word} (hw : m.Fits w) (hu : typeOf (m.walk u) ≠ judyTrieNode) :
    (m.store jp w).walk = Function.update m.walk u w := by
  funext q
  rw [walk_overwrite hwf h hw, Function.update_apply]
  by_cases hb : Begins u q
  · rcases begins_iff.mp hb with ⟨v, hv, rfl⟩
    rw [if_pos hb, walk_append_of_not_trie hu v hv]
  · rw [if_neg hb]

/-- A store of a word that fits keeps the structure. -/
theorem wf_store {m : Judy A} (hwf : m.WF) {u : List UInt8} {jp : Slot} (h : m.SlotAt u jp)
    {w : Word} (hw : m.Fits w) : (m.store jp w).WF := by
  -- the word at a path is the new one, or null, or an old one at the same path
  have hcases : ∀ q, (q = u ∧ (m.store jp w).walk q = w) ∨ (m.store jp w).walk q = 0 ∨
      (q ≠ u ∧ (m.store jp w).walk q = m.walk q) := by
    intro q
    rw [walk_overwrite hwf h hw]
    by_cases hq : q = u
    · exact Or.inl ⟨hq, if_pos hq⟩
    · rw [if_neg hq]
      by_cases hb : Begins u q
      · exact Or.inr (Or.inl (if_pos hb))
      · exact Or.inr (Or.inr ⟨hq, if_neg hb⟩)
  have hzero : typeOf 0 ≠ judyTrieNode := by decide
  refine ⟨?_, ?_, ?_⟩
  · intro q
    rcases hcases q with ⟨-, hq⟩ | hq | ⟨-, hq⟩
    · rw [hq]
      rcases hw with hw | hw
      · exact Or.inr (Or.inl hw)
      · exact Or.inr (Or.inr hw.1)
    · rw [hq]
      exact Or.inl typeOf_zero
    · rw [hq]
      exact hwf.tags q
  · intro q hq
    rcases hcases q with ⟨-, h'⟩ | h' | ⟨-, h'⟩
    · rw [h'] at hq ⊢
      rcases hw with hleaf | ⟨-, hzero, -⟩
      · rw [hleaf] at hq
        cases hq
      · exact node_store h w hzero
    · rw [h'] at hq
      exact absurd hq hzero
    · rw [h'] at hq ⊢
      rcases hwf.node q hq with ⟨n, hn⟩
      exact node_store h w hn
  · intro q r hq hqr
    have hr := hqr ▸ hq
    have hfresh : typeOf w = judyTrieNode → ∀ v, m.walk v ≠ w := by
      intro ht
      rcases hw with hleaf | hw
      · rw [hleaf] at ht
        cases ht
      · exact hw.2.2
    -- two paths with one node: both at `u`, one of them, or neither
    rcases hcases q with ⟨hqu, hq'⟩ | hq' | ⟨-, hq'⟩
    · rcases hcases r with ⟨hru, hr'⟩ | hr' | ⟨-, hr'⟩
      · rw [hqu, hru]
      · rw [hr'] at hr
        exact absurd hr hzero
      · rw [hq'] at hq hqr
        exact absurd (hqr.trans hr').symm (hfresh hq r)
    · rw [hq'] at hq
      exact absurd hq hzero
    · rcases hcases r with ⟨hru, hr'⟩ | hr' | ⟨-, hr'⟩
      · rw [hq'] at hq hqr
        rw [hr'] at hqr
        exact absurd hqr (hfresh (hqr ▸ hq) q)
      · rw [hr'] at hr
        exact absurd hr hzero
      · rw [hq'] at hq hqr
        exact hwf.inj q r hq (hqr.trans hr')

/-- A store does not move its slot. -/
theorem slotAt_store {m : Judy A} (hwf : m.WF) {u : List UInt8} {jp : Slot} (h : m.SlotAt u jp)
    {w : Word} (hw : m.Fits w) : (m.store jp w).SlotAt u jp := by
  cases h with
  | root => exact .root
  | @vec u c hu =>
    -- the node the slot is in is above it
    have habove : ¬ Begins (u ++ [c]) u := by
      intro hb
      have hlen := hb.length_lt
      rw [List.length_append] at hlen
      omega
    have hsame : (m.store (.vec (decode (m.walk u)) c) w).walk u = m.walk u := by
      rw [walk_overwrite hwf (.vec hu) hw, if_neg (by simp), if_neg habove]
    have hslot := Judy.SlotAt.vec (m := m.store (.vec (decode (m.walk u)) c) w) (c := c)
      (hsame ▸ hu)
    rwa [hsame] at hslot

end Jetlang.Sym
