import Jetlang.Sym.Walk

/-! # The insertion loop

`_judy_push` walks down the path of its key and puts a node in every null slot
it meets, so it ends at the slot of the key. The only thing that can stop it
is a leaf above that slot, and there it turns forever.
-/

namespace Jetlang.Sym

open Mem Keys

variable {A : Allocator}

/-- The loop never looks at a leaf while bytes are left to read. -/
def NeverLeaf (s : PushState A) : Prop :=
  ∀ k, (pushTurn^[k] s).str ≠ [] →
    typeOf ((pushTurn^[k] s).judy.load (pushTurn^[k] s).jp) ≠ judyLeafNode

/-- What the loop has done when it has taken the bytes `v` below the path `u`:
it stands at the slot of `u ++ v`, and the table has changed at most in null
slots above it. -/
structure Pushed (m : Judy A) (u v : List UInt8) (s : PushState A) : Prop where
  done : s.str = []
  wf : s.judy.WF
  slot : s.judy.SlotAt (u ++ v) s.jp
  same : ∀ q, ¬ Begins q (u ++ v) → s.judy.walk q = m.walk q
  kept : ∀ q, typeOf (m.walk q) ≠ judyNullNode → s.judy.walk q = m.walk q
  symbols : ∀ a x, m.heap.cells a = some (.symbol x) → s.judy.heap.cells a = some (.symbol x)

/-- Above a slot there are inner nodes only. -/
theorem trie_of_slotAt {m : Judy A} {u q : List UInt8} {jp : Slot} (h : m.SlotAt u jp)
    (hq : Begins q u) : typeOf (m.walk q) = judyTrieNode := by
  cases h with
  | root =>
    have := hq.length_lt
    simp at this
  | @vec u c hu =>
    -- either the node the slot is in, or a node above that one
    by_cases hqu : q = u
    · rw [hqu]
      exact hu
    · have hle : q <+: u := by
        have hlen : q.length ≤ u.length := by
          have := hq.length_lt
          rw [List.length_append, List.length_singleton] at this
          omega
        exact List.prefix_of_prefix_length_le hq.1 (List.prefix_append u [c]) hlen
      exact trie_of_begins ⟨hle, hqu⟩ (by rw [hu]; decide)

/-- The loop enters the node at its slot. -/
theorem pushTurn_enters {m : Judy A} {u : List UInt8} {jp : Slot} (h : m.SlotAt u jp)
    (hu : typeOf (m.walk u) = judyTrieNode) (c : UInt8) (v : List UInt8) :
    ∃ jp', pushTurn ⟨m, jp, c :: v⟩ = ⟨m, jp', v⟩ ∧ m.SlotAt (u ++ [c]) jp' := by
  have hload : m.load jp = m.walk u := load_slotAt h
  refine ⟨.vec (decode (m.walk u)) c, ?_, .vec hu⟩
  have hstr : (⟨m, jp, c :: v⟩ : PushState A).str = c :: v := rfl
  rw [pushTurn_trie hstr (by rw [hload]; exact hu), hload]

/-- The table with a zeroed node in a slot. -/
def Judy.grown (m : Judy A) (jp : Slot) : Judy A :=
  (m.withObj (.trieNode ⟨fun _ => 0⟩)).store jp (encode m.heap.brk judyTrieNode)

/-- The loop puts a zeroed node in a null slot. -/
theorem pushTurn_grows {m : Judy A} {u : List UInt8} {jp : Slot} (h : m.SlotAt u jp)
    (hu : typeOf (m.walk u) = judyNullNode) (c : UInt8) (v : List UInt8) :
    pushTurn ⟨m, jp, c :: v⟩ = ⟨m.grown jp, jp, c :: v⟩ := by
  have hload : m.load jp = m.walk u := load_slotAt h
  have hstr : (⟨m, jp, c :: v⟩ : PushState A).str = c :: v := rfl
  exact pushTurn_null hstr (by rw [hload]; exact hu)

/-- The pointer to a new node is read back from its slot. -/
theorem typeOf_brk (m : Judy A) : typeOf (encode m.heap.brk judyTrieNode) = judyTrieNode :=
  typeOf_encode m.heap.brk_aligned (by decide)

theorem decode_brk (m : Judy A) : decode (encode m.heap.brk judyTrieNode) = m.heap.brk :=
  decode_encode m.heap.brk_aligned (by decide)

/-- A new node in a null slot changes nothing else. -/
theorem grown_spec {m : Judy A} (hwf : m.WF) {u : List UInt8} {jp : Slot} (h : m.SlotAt u jp)
    (hu : typeOf (m.walk u) = judyNullNode) :
    (m.grown jp).WF ∧ (m.grown jp).SlotAt u jp ∧
      (m.grown jp).walk = Function.update m.walk u (encode m.heap.brk judyTrieNode) ∧
      ∀ a x, m.heap.cells a = some (.symbol x) → (m.grown jp).heap.cells a = some (.symbol x) := by
  -- the new node is in no slot yet: its block was not in use
  have hfits : (m.withObj (.trieNode ⟨fun _ => 0⟩)).Fits (encode m.heap.brk judyTrieNode) := by
    refine Or.inr ⟨typeOf_brk m, by rw [decode_brk]; exact m.heap.alloc_brk _, ?_⟩
    intro q hq
    rw [walk_withObj hwf] at hq
    rcases hwf.node q (by rw [hq]; exact typeOf_brk m) with ⟨n, hn⟩
    rw [hq, decode_brk, Heap.cells_brk] at hn
    cases hn
  have hwf₁ := wf_withObj hwf (.trieNode ⟨fun _ => 0⟩)
  have hslot₁ := slotAt_withObj hwf (.trieNode ⟨fun _ => 0⟩) h
  have hu₁ : typeOf ((m.withObj (.trieNode ⟨fun _ => 0⟩)).walk u) ≠ judyTrieNode := by
    rw [walk_withObj hwf, hu]
    decide
  have hwalk := walk_store hwf₁ hslot₁ hfits hu₁
  rw [walk_withObj hwf] at hwalk
  exact ⟨wf_store hwf₁ hslot₁ hfits, slotAt_store hwf₁ hslot₁ hfits, hwalk,
    fun a x hx => symbol_store hwf₁ hslot₁ _ (Heap.alloc_keeps _ hx)⟩

theorem neverLeaf_of_turn {s : PushState A}
    (h : typeOf (s.judy.load s.jp) ≠ judyLeafNode) (hs : NeverLeaf (pushTurn s)) :
    NeverLeaf s := by
  intro k hk
  cases k with
  | zero => exact h
  | succ k =>
    rw [Function.iterate_succ_apply] at hk ⊢
    exact hs k hk

/-- **The loop ends.** If no leaf stands above the slot of the key, at most two
turns for each byte bring the loop there, and it never looks at a leaf. The
induction is on the bytes left. -/
theorem push_ends {m : Judy A} {u : List UInt8} {jp : Slot} (v : List UInt8) (hwf : m.WF)
    (h : m.SlotAt u jp) (hleaf : ∀ q, Begins q (u ++ v) → typeOf (m.walk q) ≠ judyLeafNode) :
    (∃ n ≤ 2 * v.length, Pushed m u v (pushTurn^[n] ⟨m, jp, v⟩)) ∧ NeverLeaf ⟨m, jp, v⟩ := by
  induction v generalizing m u jp with
  | nil =>
    -- no bytes left: no turn is needed, and none does anything
    refine ⟨⟨0, le_refl _, ⟨rfl, hwf, by simpa using h, fun _ _ => rfl, fun _ _ => rfl,
      fun _ _ hx => hx⟩⟩, ?_⟩
    intro k hk
    rw [pushTurn_iterate_done rfl] at hk
    exact absurd rfl hk
  | cons c v ih =>
    have hload : m.load jp = m.walk u := load_slotAt h
    have hassoc : u ++ [c] ++ v = u ++ c :: v := by simp
    have hu := hleaf u (begins_append_cons u c v)
    by_cases ht : typeOf (m.walk u) = judyTrieNode
    · -- the slot is a node: one turn
      rcases pushTurn_enters h ht c v with ⟨jp', hturn, h'⟩
      rcases ih hwf h' (by rw [hassoc]; exact hleaf) with ⟨⟨n, hn, hpushed⟩, hnever⟩
      refine ⟨⟨n + 1, by rw [List.length_cons]; omega, ?_⟩, ?_⟩
      · rw [Function.iterate_succ_apply, hturn]
        exact ⟨hpushed.done, hpushed.wf, hassoc ▸ hpushed.slot, hassoc ▸ hpushed.same,
          hpushed.kept, hpushed.symbols⟩
      · exact neverLeaf_of_turn (by rw [hload]; exact hu) (hturn ▸ hnever)
    · -- the slot is null: one turn puts a node there, the next one enters it
      have hnull : typeOf (m.walk u) = judyNullNode := by
        rcases hwf.tags u with h | h | h
        · exact h
        · exact absurd h hu
        · exact absurd h ht
      have hgrow := pushTurn_grows h hnull c v
      rcases grown_spec hwf h hnull with ⟨hwf', h', hwalk, hsym⟩
      have ht' : typeOf ((m.grown jp).walk u) = judyTrieNode := by
        rw [hwalk, Function.update_self]
        exact typeOf_brk m
      have hsame : ∀ q, q ≠ u → (m.grown jp).walk q = m.walk q := by
        intro q hq
        rw [hwalk, Function.update_of_ne hq]
      rcases pushTurn_enters h' ht' c v with ⟨jp', hturn, h''⟩
      -- the new node is no leaf, and above the key nothing else has changed
      have hleaf' : ∀ q, Begins q (u ++ [c] ++ v) →
          typeOf ((m.grown jp).walk q) ≠ judyLeafNode := by
        intro q hq
        by_cases hqu : q = u
        · rw [hqu, ht']
          decide
        · rw [hsame q hqu]
          exact hleaf q (hassoc ▸ hq)
      rcases ih hwf' h'' hleaf' with ⟨⟨n, hn, hpushed⟩, hnever⟩
      refine ⟨⟨n + 2, by rw [List.length_cons]; omega, ?_⟩, ?_⟩
      · rw [Function.iterate_succ_apply, Function.iterate_succ_apply, hgrow, hturn]
        refine ⟨hpushed.done, hpushed.wf, hassoc ▸ hpushed.slot, ?_, ?_,
          fun a x hx => hpushed.symbols a x (hsym a x hx)⟩
        · intro q hq
          have hqu : q ≠ u := by
            rintro rfl
            exact hq (begins_append_cons q c v)
          rw [hpushed.same q (hassoc ▸ hq), hsame q hqu]
        · intro q hq
          have hqu : q ≠ u := by
            rintro rfl
            exact hq hnull
          rw [hpushed.kept q (by rw [hsame q hqu]; exact hq), hsame q hqu]
      · refine neverLeaf_of_turn (by rw [hload]; exact hu) ?_
        rw [hgrow]
        refine neverLeaf_of_turn ?_ (hturn ▸ hnever)
        rw [load_slotAt h', ht']
        decide

/-- Through nodes the loop walks down, one turn for each byte, and changes
nothing. -/
theorem push_descends {m : Judy A} {u : List UInt8} {jp : Slot} (w r : List UInt8)
    (h : m.SlotAt u jp)
    (htrie : ∀ q, u <+: q → Begins q (u ++ w) → typeOf (m.walk q) = judyTrieNode) :
    ∃ jp', pushTurn^[w.length] ⟨m, jp, w ++ r⟩ = ⟨m, jp', r⟩ ∧ m.SlotAt (u ++ w) jp' := by
  induction w generalizing u jp with
  | nil => exact ⟨jp, rfl, by simpa using h⟩
  | cons c w ih =>
    have hassoc : u ++ [c] ++ w = u ++ c :: w := by simp
    -- the node at `u` is entered in one turn, the rest is the induction
    rcases pushTurn_enters h (htrie u (List.prefix_refl u) (begins_append_cons u c w)) c (w ++ r)
      with ⟨jp₁, hturn, h₁⟩
    obtain ⟨jp', hrun, h'⟩ := ih h₁ fun q hq hb =>
      htrie q ((List.prefix_append u [c]).trans hq) (hassoc ▸ hb)
    refine ⟨jp', ?_, hassoc ▸ h'⟩
    rw [List.length_cons, Function.iterate_succ_apply, List.cons_append, hturn, hrun]

/-- **The loop that does not end.** If a leaf stands above the slot of the key,
the loop reaches it with bytes left, and no number of turns ends it. -/
theorem push_stuck {m : Judy A} {k q : List UInt8} (hq : Begins q k)
    (hleaf : typeOf (m.walk q) = judyLeafNode) :
    (∀ n, (pushTurn^[n] ⟨m, .root, k⟩ : PushState A).str ≠ []) ∧
      ¬ NeverLeaf (⟨m, .root, k⟩ : PushState A) := by
  rcases begins_iff.mp hq with ⟨r, hr, rfl⟩
  obtain ⟨jp', hrun, h'⟩ := push_descends q r Judy.SlotAt.root fun x _ hx =>
    trie_of_begins hx (by rw [List.nil_append, hleaf]; decide)
  have hload : typeOf (m.load jp') = judyLeafNode := by
    rw [load_slotAt h', List.nil_append, hleaf]
  -- from here on a turn changes nothing
  have hfix : pushTurn (⟨m, jp', r⟩ : PushState A) = ⟨m, jp', r⟩ := pushTurn_leaf hload
  constructor
  · -- an ended loop would stay ended, but later the bytes `r` are left
    intro n hn
    have hlater := pushTurn_iterate_done hn q.length
    rw [← Function.iterate_add_apply, Nat.add_comm, Function.iterate_add_apply, hrun,
      Function.iterate_fixed hfix] at hlater
    rw [← hlater] at hn
    exact hr hn
  · intro hnever
    refine hnever q.length ?_ ?_
    · rw [hrun]
      exact hr
    · rw [hrun]
      exact hload

end Jetlang.Sym
