import Jetlang.Sym.Slices

/-! # The shape of the table

Everything that is ever allocated is still in use: each node is at a path, and
each symbol was returned by a call. Together with the map a table holds this
determines its shape and the number of allocations: there is a node at each
prefix of a string, and a symbol for each string, in whatever order the calls
were made.
-/

namespace Jetlang.Sym

open Mem Keys

variable {A : Allocator}

/-! ## Nothing is lost -/

/-- Every block holds an object, and every node is at a path. -/
structure Judy.Tidy (m : Judy A) : Prop where
  full : m.heap.Full
  reached : ∀ a n, m.heap.cells a = some (.trieNode n) →
    ∃ u, typeOf (m.walk u) = judyTrieNode ∧ decode (m.walk u) = a

theorem tidy_init : (judyInit : Judy A).Tidy :=
  ⟨Heap.full_empty, fun a n h => by cases h⟩

theorem full_store {m : Judy A} (h : m.heap.Full) (jp : Slot) (w : Word) :
    (m.store jp w).heap.Full := by
  cases jp with
  | root => exact h
  | vec node c => exact h.write _ _

/-- A store does not make an object another kind of object. -/
theorem cells_store {m : Judy A} (hwf : m.WF) {u : List UInt8} {jp : Slot} (h : m.SlotAt u jp)
    (w : Word) (a : Word) :
    (∀ n, (m.store jp w).heap.cells a = some (.trieNode n) →
      ∃ n', m.heap.cells a = some (.trieNode n')) ∧
    ∀ s, (m.store jp w).heap.cells a = some (.symbol s) → m.heap.cells a = some (.symbol s) := by
  cases h with
  | root => exact ⟨fun n hn => ⟨n, hn⟩, fun s hs => hs⟩
  | @vec u c hu =>
    by_cases ha : a = decode (m.walk u)
    · rcases hwf.node u hu with ⟨n₀, hn₀⟩
      subst ha
      refine ⟨fun n _ => ⟨n₀, hn₀⟩, ?_⟩
      intro s hs
      have hwrite := Heap.write_same (h := m.heap)
        (.trieNode ⟨Function.update (m.vec (decode (m.walk u))) c w⟩) hn₀
      rw [Judy.store, hwrite] at hs
      cases hs
    · have hsame : (m.store (.vec (decode (m.walk u)) c) w).heap.cells a = m.heap.cells a :=
        Heap.write_ne _ _ ha
      rw [hsame]
      exact ⟨fun n hn => ⟨n, hn⟩, fun s hs => hs⟩

/-- The state of an insertion loop: the table is tidy, and has the symbols it had
at the start, when it was `m₀`. -/
structure Grows (m₀ : Judy A) (s : PushState A) : Prop where
  wf : s.judy.WF
  slot : ∃ u, s.judy.SlotAt u s.jp
  tidy : s.judy.Tidy
  symbols : ∀ a x, s.judy.heap.cells a = some (.symbol x) → m₀.heap.cells a = some (.symbol x)

/-- A new node that is put in a null slot is reached there. -/
theorem tidy_grown {m : Judy A} (hwf : m.WF) (htidy : m.Tidy) {u : List UInt8} {jp : Slot}
    (h : m.SlotAt u jp) (hu : typeOf (m.walk u) = judyNullNode) :
    (m.grown jp).Tidy ∧
      ∀ a x, (m.grown jp).heap.cells a = some (.symbol x) →
        m.heap.cells a = some (.symbol x) := by
  have hcells := cells_store (wf_withObj hwf (.trieNode ⟨fun _ => 0⟩))
    (slotAt_withObj hwf (.trieNode ⟨fun _ => 0⟩) h) (encode m.heap.brk judyTrieNode)
  have hold : ∀ a, a ≠ m.heap.brk →
      (m.withObj (.trieNode ⟨fun _ => 0⟩)).heap.cells a = m.heap.cells a :=
    fun a ha => if_neg ha
  rcases grown_spec hwf h hu with ⟨-, -, hwalk, -⟩
  refine ⟨⟨full_store (htidy.full.alloc _) _ _, ?_⟩, ?_⟩
  · intro a n hn
    by_cases ha : a = m.heap.brk
    · refine ⟨u, ?_, ?_⟩
      · rw [hwalk, Function.update_self]
        exact typeOf_brk m
      · rw [hwalk, Function.update_self, ha]
        exact decode_brk m
    · rcases (hcells a).1 n hn with ⟨n₁, hn₁⟩
      rw [hold a ha] at hn₁
      rcases htidy.reached a n₁ hn₁ with ⟨q, hq, hqa⟩
      -- an old node is not at the slot, which was null
      have hqu : q ≠ u := by
        rintro rfl
        rw [hu] at hq
        cases hq
      refine ⟨q, ?_, ?_⟩
      · rw [hwalk, Function.update_of_ne hqu]
        exact hq
      · rw [hwalk, Function.update_of_ne hqu]
        exact hqa
  · intro a x hx
    have hx₁ := (hcells a).2 x hx
    by_cases ha : a = m.heap.brk
    · have hbrk : (m.withObj (.trieNode ⟨fun _ => 0⟩)).heap.cells m.heap.brk =
          some (.trieNode ⟨fun _ => 0⟩) := Heap.alloc_brk m.heap _
      rw [ha, hbrk] at hx₁
      cases hx₁
    · rwa [hold a ha] at hx₁

/-- Step: one turn of the loop. -/
theorem Grows.turn {m₀ : Judy A} {s : PushState A} (h : Grows m₀ s) : Grows m₀ (pushTurn s) := by
  rcases h with ⟨hwf, ⟨u, hslot⟩, htidy, hsymbols⟩
  rcases s with ⟨m, jp, str⟩
  cases str with
  | nil =>
    rw [pushTurn_done rfl]
    exact ⟨hwf, ⟨u, hslot⟩, htidy, hsymbols⟩
  | cons c v =>
    have hload : m.load jp = m.walk u := load_slotAt hslot
    rcases hwf.tags u with hu | hu | hu
    · -- the slot is null
      rcases grown_spec hwf hslot hu with ⟨hwf', hslot', -, -⟩
      rcases tidy_grown hwf htidy hslot hu with ⟨htidy', hsymbols'⟩
      rw [pushTurn_grows hslot hu c v]
      exact ⟨hwf', ⟨u, hslot'⟩, htidy', fun a x hx => hsymbols a x (hsymbols' a x hx)⟩
    · -- a leaf
      have hleaf : typeOf (m.load jp) = judyLeafNode := by
        rw [hload]
        exact hu
      rw [pushTurn_leaf hleaf]
      exact ⟨hwf, ⟨u, hslot⟩, htidy, hsymbols⟩
    · -- an inner node
      rcases pushTurn_enters hslot hu c v with ⟨jp', hturn, hslot'⟩
      rw [hturn]
      exact ⟨hwf, ⟨_, hslot'⟩, htidy, hsymbols⟩

/-- Run: any number of turns. -/
theorem Grows.turns {m₀ : Judy A} {s : PushState A} (h : Grows m₀ s) (n : ℕ) :
    Grows m₀ (pushTurn^[n] s) := by
  induction n generalizing s with
  | zero => exact h
  | succ n ih =>
    rw [Function.iterate_succ_apply]
    exact ih h.turn

/-- A call whose insertion is safe loses no node, and adds at most the symbol it
returns. -/
theorem tidy_of_returns {m m' : Judy A} {c : Call} {p : Word} (hwf : m.WF) (htidy : m.Tidy)
    (hsafe : PushSafe m c) (hret : Returns m c p m') :
    m'.Tidy ∧ ∀ a x, m'.heap.cells a = some (.symbol x) →
      m.heap.cells a = some (.symbol x) ∨ a = p := by
  rcases hret with ⟨turns, hget⟩
  have hfind := judyFind_eq hwf c
  generalize (if typeOf (m.walk c.key) = judyLeafNode then decode (m.walk c.key) else 0) = res
    at hfind
  by_cases hres : res = 0
  · -- the call inserts
    subst hres
    have hlen := len_lt_of_returns hfind ⟨turns, hget⟩
    rw [getsym_of_not_found hfind hlen, judyPush] at hget
    set s₀ := pushStart (m.withObj (.symbol ⟨c.len, c.key⟩)) c.str c.len with hs₀
    have hstart : Grows (m.withObj (.symbol ⟨c.len, c.key⟩)) s₀ := by
      refine ⟨wf_withObj hwf _, ⟨[], .root⟩, ⟨htidy.full.alloc _, ?_⟩, fun _ _ hx => hx⟩
      intro a n hn
      have ha : a ≠ m.heap.brk := by
        rintro rfl
        have hbrk : s₀.judy.heap.cells m.heap.brk = some (.symbol ⟨c.len, c.key⟩) :=
          Heap.alloc_brk m.heap _
        rw [hbrk] at hn
        cases hn
      have hold : m.heap.cells a = some (.trieNode n) := by
        rw [← hn]
        exact (if_neg ha).symm
      show ∃ u, typeOf ((m.withObj _).walk u) = judyTrieNode ∧ decode ((m.withObj _).walk u) = a
      rw [walk_withObj hwf]
      exact htidy.reached a n hold
    have hgrows := hstart.turns turns
    by_cases hdone : (pushTurn^[turns] s₀).str = []
    · rw [if_pos hdone, Option.some.injEq, Prod.mk.injEq] at hget
      rcases hget with ⟨rfl, rfl⟩
      rcases hgrows.slot with ⟨u, hslot⟩
      have hmake : makeSym m c.str c.len =
          some (m.heap.brk, m.withObj (.symbol ⟨c.len, c.key⟩)) := by
        rw [makeSym_eq, if_pos hlen]
      have hend := (hsafe _ _ hfind hmake).2 turns hdone
      rw [load_slotAt hslot] at hend
      have hfits : (pushTurn^[turns] s₀).judy.Fits (encode m.heap.brk judyLeafNode) :=
        Or.inl (typeOf_encode m.heap.brk_aligned (by decide))
      have hwalk := walk_store hgrows.wf hslot hfits hend
      have hcells := cells_store hgrows.wf hslot (encode m.heap.brk judyLeafNode)
      refine ⟨⟨full_store hgrows.tidy.full _ _, ?_⟩, ?_⟩
      · intro a n hn
        rcases (hcells a).1 n hn with ⟨n₁, hn₁⟩
        rcases hgrows.tidy.reached a n₁ hn₁ with ⟨q, hq, hqa⟩
        -- the leaf replaces no node
        have hqu : q ≠ u := by
          rintro rfl
          exact hend hq
        rw [hwalk]
        exact ⟨q, by rw [Function.update_of_ne hqu]; exact hq,
          by rw [Function.update_of_ne hqu]; exact hqa⟩
      · intro a x hx
        have hx₁ := hgrows.symbols a x ((hcells a).2 x hx)
        by_cases ha : a = m.heap.brk
        · exact Or.inr ha
        · left
          rw [← hx₁]
          exact (if_neg ha).symm
    · rw [if_neg hdone] at hget
      cases hget
  · -- the symbol is found
    unfold getsym at hget
    rw [hfind] at hget
    simp only [if_pos hres, Option.some.injEq, Prod.mk.injEq] at hget
    rcases hget with ⟨-, rfl⟩
    exact ⟨htidy, fun a x hx => Or.inl hx⟩

/-- In a run with prefix-free keys the table stays tidy, and its symbols are the
ones returned. -/
theorem run_tidy {log : List (Call × Word)} {m : Judy A} (hrun : Run A log m)
    (hfree : PrefixFree (keys (log.map Prod.fst))) :
    m.Tidy ∧ ∀ a s, m.heap.cells a = some (.symbol s) → ∃ x ∈ log, x.2 = a := by
  induction hrun with
  | init => exact ⟨tidy_init, fun a s hs => by cases hs⟩
  | @call log m m' c p hrun hret ih =>
    rw [List.map_append, keys_append] at hfree
    have hfree₁ := (prefixFree_append_singleton.mp hfree).1
    rcases ih hfree₁ with ⟨htidy, hsymbols⟩
    rcases run_refines hrun hfree₁ with ⟨T, hruns, h⟩
    have hsafe : PushSafe m c := by
      cases hk : T c.key with
      | some q => exact pushSafe_hit h hk
      | none =>
        have hfind : judyFind m c.str c.len = some 0 := by
          rw [judyFind_represents h, hk, Option.getD_none]
        exact (call_refines hruns h hfree (len_lt_of_returns hfind hret)).1
    rcases tidy_of_returns h.wf htidy hsafe hret with ⟨htidy', hnew⟩
    refine ⟨htidy', ?_⟩
    intro a s hs
    rcases hnew a s hs with hold | rfl
    · rcases hsymbols a s hold with ⟨x, hx, rfl⟩
      exact ⟨x, List.mem_append_left _ hx, rfl⟩
    · exact ⟨(c, a), List.mem_append_right _ List.mem_cons_self, rfl⟩

/-! ## The shape -/

/-- The two tables have nodes at the same paths and leaves at the same paths,
with symbols of one length and the same bytes. -/
def SameShape {B : Allocator} (m : Judy A) (m' : Judy B) : Prop :=
  ∀ path, typeOf (m.walk path) = typeOf (m'.walk path) ∧
    (typeOf (m.walk path) = judyLeafNode →
      ∃ s, m.symbol (decode (m.walk path)) = some s ∧ m'.symbol (decode (m'.walk path)) = some s)

/-- The object is a node. -/
def Obj.isNode : Obj → Bool
  | .trieNode _ => true
  | .symbol _ => false

/-- The prefixes of the strings, themselves and the empty one included. -/
def prefixes (calls : List Call) : Finset (List UInt8) :=
  (calls.flatMap fun c => c.bytes.inits).toFinset

/-- The strings. -/
def strings (calls : List Call) : Finset (List UInt8) := (calls.map Call.bytes).toFinset

/-- A node was allocated for every prefix of the strings, a symbol for every
string, and nothing else. -/
structure Counted (m : Judy A) (calls : List Call) : Prop where
  nodes : m.heap.allocated Obj.isNode = (prefixes calls).card
  symbols : (m.heap.allocated fun x => !x.isNode) = (strings calls).card
  total : m.heap.next = (prefixes calls).card + (strings calls).card

theorem mem_strings {calls : List Call} {u : List UInt8} :
    u ∈ strings calls ↔ ∃ c ∈ calls, c.bytes = u := by
  rw [strings, List.mem_toFinset, List.mem_map]

theorem mem_prefixes {calls : List Call} {u : List UInt8} :
    u ∈ prefixes calls ↔ ∃ v ∈ strings calls, u <+: v := by
  simp only [prefixes, List.mem_toFinset, List.mem_flatMap, List.mem_inits, mem_strings]
  constructor
  · rintro ⟨c, hc, hu⟩
    exact ⟨c.bytes, ⟨c, hc, rfl⟩, hu⟩
  · rintro ⟨v, ⟨c, hc, rfl⟩, hu⟩
    exact ⟨c, hc, hu⟩

/-- The table holds a map whose keys are the terminated strings. -/
structure HoldsStrings (m : Judy A) (T : List UInt8 → Option Word) (calls : List Call) : Prop where
  represents : Represents m T
  injective : ∀ k k' p, T k = some p → T k' = some p → k = k'
  keys : ∀ k, T k ≠ none ↔ ∃ u ∈ strings calls, k = u ++ [0]

theorem holdsStrings_of_run {log : List (Call × Word)} {m : Judy A} (hrun : Run A log m)
    (hplain : ∀ c ∈ log.map Prod.fst, c.Plain) :
    ∃ T, HoldsStrings m T (log.map Prod.fst) ∧ (∀ x ∈ log, T x.1.key = some x.2) := by
  rcases run_refines hrun (prefixFree_of_plain hplain) with ⟨T, hruns, h⟩
  have hlog : ∀ x ∈ log, T x.1.key = some x.2 := fun x hx =>
    (Interner.mem_iff hruns _ _).mp (List.mem_map.mpr ⟨x, hx, rfl⟩)
  refine ⟨T, ⟨h, fun k k' p hk hk' => Interner.injective hruns hk hk', ?_⟩, hlog⟩
  intro k
  constructor
  · intro hk
    rcases Option.ne_none_iff_exists'.mp hk with ⟨p, hp⟩
    rcases List.mem_map.mp (mem_keys_of_find hruns hp) with ⟨c, hc, rfl⟩
    exact ⟨c.bytes, mem_strings.mpr ⟨c, hc, rfl⟩, (hplain c hc).key_eq⟩
  · rintro ⟨u, hu, rfl⟩
    rcases mem_strings.mp hu with ⟨c, hc, rfl⟩
    rcases List.mem_map.mp hc with ⟨x, hx, rfl⟩
    rw [← (hplain x.1 hc).key_eq, hlog x hx]
    exact Option.some_ne_none _

section

variable {m : Judy A} {T : List UInt8 → Option Word} {calls : List Call}

/-- There is a node at each prefix of a string. -/
theorem trie_iff (h : HoldsStrings m T calls) (q : List UInt8) :
    typeOf (m.walk q) = judyTrieNode ↔ q ∈ prefixes calls := by
  rw [h.represents.node, mem_prefixes]
  constructor
  · rintro ⟨k, p, hk, hq⟩
    rcases (h.keys k).mp (by rw [hk]; exact Option.some_ne_none p) with ⟨u, hu, rfl⟩
    exact ⟨u, hu, begins_snoc.mp hq⟩
  · rintro ⟨u, hu, hq⟩
    rcases Option.ne_none_iff_exists'.mp ((h.keys (u ++ [0])).mpr ⟨u, hu, rfl⟩) with ⟨p, hp⟩
    exact ⟨u ++ [0], p, hp, begins_snoc.mpr hq⟩

/-- There is a leaf behind each string. -/
theorem leaf_iff (h : HoldsStrings m T calls) (q : List UInt8) :
    typeOf (m.walk q) = judyLeafNode ↔ ∃ u ∈ strings calls, q = u ++ [0] := by
  rw [← h.keys]
  constructor
  · intro hleaf
    rcases h.represents.key q hleaf with ⟨p, hp⟩
    rw [hp]
    exact Option.some_ne_none p
  · intro hq
    rcases Option.ne_none_iff_exists'.mp hq with ⟨p, hp⟩
    exact typeOf_of_key h.represents hp

/-- The strings determine the shape. -/
theorem sameShape_of_strings {B : Allocator} {m' : Judy B} {T' : List UInt8 → Option Word}
    {calls' : List Call} (h : HoldsStrings m T calls) (h' : HoldsStrings m' T' calls')
    (hset : strings calls = strings calls') : SameShape m m' := by
  have htrie : ∀ q, typeOf (m.walk q) = judyTrieNode ↔ typeOf (m'.walk q) = judyTrieNode := by
    intro q
    rw [trie_iff h, trie_iff h', mem_prefixes, mem_prefixes, hset]
  have hleaf : ∀ q, typeOf (m.walk q) = judyLeafNode ↔ typeOf (m'.walk q) = judyLeafNode := by
    intro q
    rw [leaf_iff h, leaf_iff h', hset]
  intro q
  constructor
  · rcases h.represents.wf.tags q with hq | hq | hq
    · rcases h'.represents.wf.tags q with hq' | hq' | hq'
      · rw [hq, hq']
      · rw [(hleaf q).mpr hq', hq']
      · rw [(htrie q).mpr hq', hq']
    · rw [hq, (hleaf q).mp hq]
    · rw [hq, (htrie q).mp hq]
  · intro hq
    rcases h.represents.key q hq with ⟨p, hp⟩
    rcases h'.represents.key q ((hleaf q).mp hq) with ⟨p', hp'⟩
    refine ⟨⟨q.length - 1, q⟩, ?_, ?_⟩
    · rw [decode_of_key h.represents hp]
      exact symbol_of_cells (h.represents.symbol q p hp)
    · rw [decode_of_key h'.represents hp']
      exact symbol_of_cells (h'.represents.symbol q p' hp')

end

/-- In a run the nodes and symbols are counted by the prefixes and strings. -/
theorem counted_of_run {log : List (Call × Word)} {m : Judy A} (hrun : Run A log m)
    (hplain : ∀ c ∈ log.map Prod.fst, c.Plain) : Counted m (log.map Prod.fst) := by
  rcases holdsStrings_of_run hrun hplain with ⟨T, h, hlog⟩
  rcases run_tidy hrun (prefixFree_of_plain hplain) with ⟨htidy, hsymbols⟩
  have hnodes : m.heap.allocated Obj.isNode = (prefixes (log.map Prod.fst)).card := by
    refine Heap.allocated_eq_card (f := fun u => decode (m.walk u)) ?_ ?_
    · intro u hu v hv heq
      exact path_of_decode h.represents.wf ((trie_iff h u).mpr hu) ((trie_iff h v).mpr hv) heq
    · intro a
      constructor
      · rintro ⟨x, hx, hnode⟩
        cases x with
        | symbol s => cases hnode
        | trieNode n =>
          rcases htidy.reached a n hx with ⟨u, hu, hua⟩
          exact ⟨u, (trie_iff h u).mp hu, hua⟩
      · rintro ⟨u, hu, rfl⟩
        rcases h.represents.wf.node u ((trie_iff h u).mpr hu) with ⟨n, hn⟩
        exact ⟨.trieNode n, hn, rfl⟩
  have hsyms : (m.heap.allocated fun x => !x.isNode) = (strings (log.map Prod.fst)).card := by
    refine Heap.allocated_eq_card (f := fun u => (T (u ++ [0])).getD 0) ?_ ?_
    · intro u hu v hv heq
      rcases Option.ne_none_iff_exists'.mp ((h.keys (u ++ [0])).mpr ⟨u, hu, rfl⟩) with ⟨p, hp⟩
      rcases Option.ne_none_iff_exists'.mp ((h.keys (v ++ [0])).mpr ⟨v, hv, rfl⟩) with ⟨q, hq⟩
      simp only [hp, hq, Option.getD_some] at heq
      rw [← heq] at hq
      exact List.append_cancel_right (h.injective _ _ p hp hq)
    · intro a
      constructor
      · rintro ⟨x, hx, hsym⟩
        cases x with
        | trieNode n => cases hsym
        | symbol s =>
          rcases hsymbols a s hx with ⟨y, hy, rfl⟩
          have hc : y.1 ∈ log.map Prod.fst := List.mem_map.mpr ⟨y, hy, rfl⟩
          refine ⟨y.1.bytes, mem_strings.mpr ⟨y.1, hc, rfl⟩, ?_⟩
          rw [← (hplain y.1 hc).key_eq, hlog y hy, Option.getD_some]
      · rintro ⟨u, hu, rfl⟩
        rcases Option.ne_none_iff_exists'.mp ((h.keys (u ++ [0])).mpr ⟨u, hu, rfl⟩) with ⟨p, hp⟩
        simp only [hp, Option.getD_some]
        exact ⟨_, h.represents.symbol _ p hp, rfl⟩
  refine ⟨hnodes, hsyms, ?_⟩
  rw [htidy.full.next_eq Obj.isNode, hnodes, hsyms]

/-- **The shape does not depend on the order.** Two sequences of calls on plain
strings that mention the same strings, on any two allocators, run to their end
and leave tables of one shape, and each has allocated one node for each prefix
and one symbol for each string. -/
theorem shape_of_strings (A B : Allocator) (calls calls' : List Call)
    (hplain : ∀ c ∈ calls, c.Plain) (hplain' : ∀ c ∈ calls', c.Plain)
    (hset : ∀ s, (∃ c ∈ calls, c.bytes = s) ↔ ∃ c ∈ calls', c.bytes = s) :
    ∃ log m log' m', Run A log m ∧ log.map Prod.fst = calls ∧
      Run B log' m' ∧ log'.map Prod.fst = calls' ∧
      SameShape m m' ∧ Counted m calls ∧ Counted m' calls' := by
  obtain ⟨log, m, hrun, rfl⟩ := run_exists (A := A) calls (prefixFree_of_plain hplain)
    fun c hc => (hplain c hc).short
  obtain ⟨log', m', hrun', rfl⟩ := run_exists (A := B) calls' (prefixFree_of_plain hplain')
    fun c hc => (hplain' c hc).short
  rcases holdsStrings_of_run hrun hplain with ⟨T, h, -⟩
  rcases holdsStrings_of_run hrun' hplain' with ⟨T', h', -⟩
  have hstrings : strings (log.map Prod.fst) = strings (log'.map Prod.fst) := by
    ext s
    rw [mem_strings, mem_strings, hset]
  exact ⟨log, m, log', m', hrun, rfl, hrun', rfl, sameShape_of_strings h h' hstrings,
    counted_of_run hrun hplain, counted_of_run hrun' hplain'⟩

/-- The calls for `a` and `b`, and those for `b`, `a` and `a`. -/
theorem shape_of_strings_two :
    ∃ log m log' m', Run Allocator.consecutive log m ∧
      log.map Prod.fst = [⟨[97, 0], 1, by decide⟩, ⟨[98, 0], 1, by decide⟩] ∧
      Run Allocator.consecutive log' m' ∧
      log'.map Prod.fst = [⟨[98, 0], 1, by decide⟩, ⟨[97, 0], 1, by decide⟩,
        ⟨[97, 0], 1, by decide⟩] ∧ SameShape m m' ∧
      Counted m [⟨[97, 0], 1, by decide⟩, ⟨[98, 0], 1, by decide⟩] ∧
      Counted m' [⟨[98, 0], 1, by decide⟩, ⟨[97, 0], 1, by decide⟩,
        ⟨[97, 0], 1, by decide⟩] := by
  have hname : ∀ c : Call, c = ⟨[97, 0], 1, by decide⟩ ∨ c = ⟨[98, 0], 1, by decide⟩ →
      c.Plain := by
    rintro c (rfl | rfl) <;> exact ⟨by decide, by decide, by decide⟩
  refine shape_of_strings Allocator.consecutive Allocator.consecutive _ _ ?_ ?_ ?_
  · intro c hc
    simp only [List.mem_cons, List.not_mem_nil, or_false] at hc
    exact hname c hc
  · intro c hc
    simp only [List.mem_cons, List.not_mem_nil, or_false] at hc
    exact hname c (by tauto)
  · intro s
    simp only [List.mem_cons, List.not_mem_nil, or_false, exists_eq_or_imp, exists_eq_left]
    tauto

end Jetlang.Sym
