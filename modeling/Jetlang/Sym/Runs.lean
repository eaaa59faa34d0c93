import Jetlang.Sym.Interning

/-! # Runs of `getsym`

Every run whose keys are prefix-free is a run of an interner, and zero-terminated
strings without an inner zero byte give such keys: this is the interning
contract. For arbitrary calls the keys being prefix-free is also necessary for
`_judy_push` to work as its comment says.
-/

namespace Jetlang.Sym

open Mem Keys

variable {A : Allocator}

/-- The paths of the calls. -/
def keys (calls : List Call) : List (List UInt8) := calls.map Call.key

/-- A log, with the path in place of each call. -/
def keyLog (log : List (Call × Word)) : List (List UInt8 × Word) :=
  log.map fun x => (x.1.key, x.2)

theorem keys_append (calls calls' : List Call) :
    keys (calls ++ calls') = keys calls ++ keys calls' := List.map_append

theorem keys_nil : keys [] = [] := rfl

theorem keys_cons (c : Call) (calls : List Call) : keys (c :: calls) = c.key :: keys calls := rfl

theorem keyLog_append (log log' : List (Call × Word)) :
    keyLog (log ++ log') = keyLog log ++ keyLog log' := List.map_append

/-! ## Prefix-free runs refine an interner -/

/-- The keys of the map of a run are the keys of its calls. -/
theorem mem_keys_of_find {log : List (Call × Word)} {T : List UInt8 → Option Word}
    (h : Interner.Runs (keyLog log) T) {k : List UInt8} {p : Word} (hk : T k = some p) :
    k ∈ keys (log.map Prod.fst) := by
  have hmem := (Interner.mem_iff h k p).mpr hk
  rcases List.mem_map.mp hmem with ⟨x, hx, heq⟩
  rw [Prod.mk.injEq] at heq
  rw [keys, List.map_map]
  exact List.mem_map.mpr ⟨x, hx, heq.1⟩

/-- One call of a prefix-free run: it ends, its insertion is safe, and the map
afterwards is the one of the interner. -/
theorem call_refines {log : List (Call × Word)} {m : Judy A} {T : List UInt8 → Option Word}
    (hruns : Interner.Runs (keyLog log) T) (h : Represents m T) {c : Call}
    (hfree : PrefixFree (keys (log.map Prod.fst) ++ [c.key])) (hlen : c.len < intMax) :
    PushSafe m c ∧ ∃ p m' T', Returns m c p m' ∧
      Interner.Runs (keyLog (log ++ [(c, p)])) T' ∧ Represents m' T' := by
  rw [prefixFree_append_singleton] at hfree
  cases hk : T c.key with
  | some p =>
    refine ⟨pushSafe_hit h hk, p, m, T, returns_hit h hk, ?_, h⟩
    rw [keyLog_append]
    exact .hit hruns hk
  | none =>
    rcases returns_miss h hk (fun k p hp => hfree.2 k (mem_keys_of_find hruns hp)) hlen
      with ⟨hsafe, m', hret, h'⟩
    refine ⟨hsafe, m.heap.brk, m', _, hret, ?_, h'⟩
    rw [keyLog_append]
    exact .miss hruns hk fun k => brk_not_in_map h k

/-- **Refinement.** A run whose keys are prefix-free is a run of an interner, and
its table holds the interner's map. -/
theorem run_refines {log : List (Call × Word)} {m : Judy A} (hrun : Run A log m)
    (hfree : PrefixFree (keys (log.map Prod.fst))) :
    ∃ T, Interner.Runs (keyLog log) T ∧ Represents m T := by
  induction hrun with
  | init => exact ⟨_, .init, represents_init⟩
  | @call log m m' c p hrun hret ih =>
    rw [List.map_append, keys_append] at hfree
    rcases ih (prefixFree_append_singleton.mp hfree).1 with ⟨T, hruns, h⟩
    cases hk : T c.key with
    | some q =>
      -- a key of the map
      rcases returns_unique hret (returns_hit h hk) with ⟨rfl, rfl⟩
      refine ⟨T, ?_, h⟩
      rw [keyLog_append]
      exact .hit hruns hk
    | none =>
      -- a new key: the call that returned is the one that inserts
      have hfind : judyFind m c.str c.len = some 0 := by
        rw [judyFind_represents h, hk, Option.getD_none]
      rcases call_refines hruns h hfree (len_lt_of_returns hfind hret)
        with ⟨-, q, m'', T', hret', hruns', h'⟩
      rcases returns_unique hret hret' with ⟨rfl, rfl⟩
      exact ⟨T', hruns', h'⟩

/-- Calls whose keys are prefix-free and short enough all end. -/
theorem run_exists (calls : List Call) (hfree : PrefixFree (keys calls))
    (hlen : ∀ c ∈ calls, c.len < intMax) :
    ∃ log m, Run A log m ∧ log.map Prod.fst = calls := by
  induction calls using List.reverseRecOn with
  | nil => exact ⟨[], judyInit, .init, rfl⟩
  | append_singleton calls c ih =>
    rw [keys_append] at hfree
    -- the table of the calls before holds a map, so the next call ends
    obtain ⟨log, m, hrun, rfl⟩ := ih (prefixFree_append_singleton.mp hfree).1
      fun d hd => hlen d (List.mem_append_left _ hd)
    rcases run_refines hrun (prefixFree_append_singleton.mp hfree).1 with ⟨T, hruns, h⟩
    rcases call_refines hruns h hfree (hlen c (by simp)) with ⟨-, p, m', -, hret, -⟩
    exact ⟨log ++ [(c, p)], m', hrun.call hret, by simp⟩

/-! ## The interning contract -/

/-- The bytes of the string, without the terminator. -/
def Call.bytes (c : Call) : List UInt8 := c.str.take c.len

/-- A zero-terminated string without an inner zero byte, whose length is below
`2^31 - 1`. -/
structure Call.Plain (c : Call) : Prop where
  short : c.len < 2 ^ 31 - 1
  terminated : c.str[c.len]? = some 0
  inner : (0 : UInt8) ∉ c.bytes

theorem Call.key_of_terminated {c : Call} (h : c.str[c.len]? = some 0) :
    c.key = c.bytes ++ [0] := by
  rw [key, bytes, List.take_add_one, h, Option.toList_some]

theorem Call.Plain.key_eq {c : Call} (h : c.Plain) : c.key = c.bytes ++ [0] :=
  Call.key_of_terminated h.terminated

/-- Plain strings are prefix-free. -/
theorem prefixFree_of_plain {calls : List Call} (h : ∀ c ∈ calls, c.Plain) :
    PrefixFree (keys calls) := by
  intro u hu v hv
  rcases List.mem_map.mp hu with ⟨c, hc, rfl⟩
  rcases List.mem_map.mp hv with ⟨d, hd, rfl⟩
  rw [(h c hc).key_eq, (h d hd).key_eq]
  exact not_begins_of_terminated (h d hd).inner

/-- **The interning contract.** Every sequence of calls on plain strings runs to
its end. In every state it reaches, two calls made so far have returned the
same symbol exactly when their strings are equal; every symbol returned so far
holds the length and the bytes of its string; and a further call on a string
seen before returns its symbol and leaves the table as it is, its heap and its
count of allocations included. -/
theorem interning_contract (A : Allocator) :
    (∀ calls : List Call, (∀ c ∈ calls, c.Plain) →
      ∃ log m, Run A log m ∧ log.map Prod.fst = calls) ∧
    (∀ log m, Run A log m → (∀ x ∈ log, x.1.Plain) →
      (∀ x ∈ log, ∀ y ∈ log, x.2 = y.2 ↔ x.1.bytes = y.1.bytes) ∧
      (∀ x ∈ log, m.symbol x.2 = some ⟨x.1.len, x.1.bytes ++ [0]⟩) ∧
      (∀ x ∈ log, ∀ c : Call, c.Plain → c.bytes = x.1.bytes →
        ∀ p m', Returns m c p m' ↔ p = x.2 ∧ m' = m)) := by
  refine ⟨fun calls h => run_exists calls (prefixFree_of_plain h) fun c hc => (h c hc).short, ?_⟩
  intro log m hrun hplain
  have hfree : PrefixFree (keys (log.map Prod.fst)) := by
    refine prefixFree_of_plain ?_
    intro c hc
    rcases List.mem_map.mp hc with ⟨x, hx, rfl⟩
    exact hplain x hx
  rcases run_refines hrun hfree with ⟨T, hruns, h⟩
  -- the map knows the calls of the run, and they are the keys of the map
  have hmem : ∀ x ∈ log, (x.1.key, x.2) ∈ keyLog log := fun x hx => List.mem_map.mpr ⟨x, hx, rfl⟩
  have hfind : ∀ x ∈ log, T x.1.key = some x.2 := fun x hx =>
    (Interner.mem_iff hruns _ _).mp (hmem x hx)
  refine ⟨?_, ?_, ?_⟩
  · intro x hx y hy
    rw [Interner.eq_iff hruns (hmem x hx) (hmem y hy), (hplain x hx).key_eq,
      (hplain y hy).key_eq, List.append_left_inj]
  · intro x hx
    have hsym := symbol_of_cells (h.symbol _ _ (hfind x hx))
    rw [x.1.key_length, Nat.add_sub_cancel, (hplain x hx).key_eq] at hsym
    exact hsym
  · intro x hx c hc hbytes p m'
    have hkey : T c.key = some x.2 := by
      rw [hc.key_eq, hbytes, ← (hplain x hx).key_eq]
      exact hfind x hx
    constructor
    · intro hret
      exact returns_unique hret (returns_hit h hkey)
    · rintro ⟨rfl, rfl⟩
      exact returns_hit h hkey

/-- The contract at three calls: `"a"`, `"b"` and `"a"` in a longer buffer. -/
theorem interning_contract_three :
    ∃ log m, Run Allocator.consecutive log m ∧
      log.map Prod.fst = [⟨[97, 0], 1, by decide⟩, ⟨[98, 0], 1, by decide⟩,
        ⟨[97, 0, 98], 1, by decide⟩] ∧
      ∀ x ∈ log, ∀ y ∈ log, x.2 = y.2 ↔ x.1.bytes = y.1.bytes := by
  have hplain : ∀ c ∈ ([⟨[97, 0], 1, by decide⟩, ⟨[98, 0], 1, by decide⟩,
      ⟨[97, 0, 98], 1, by decide⟩] : List Call), c.Plain := by
    intro c hc
    simp only [List.mem_cons, List.not_mem_nil, or_false] at hc
    rcases hc with rfl | rfl | rfl <;> exact ⟨by decide, by decide, by decide⟩
  rcases (interning_contract Allocator.consecutive).1 _ hplain with ⟨log, m, hrun, hcalls⟩
  refine ⟨log, m, hrun, hcalls, ((interning_contract Allocator.consecutive).2 log m hrun ?_).1⟩
  intro x hx
  exact hplain x.1 (hcalls ▸ List.mem_map.mpr ⟨x, hx, rfl⟩)

/-! ## Calls on arbitrary byte strings -/

/-- Every call of the sequence ends, its insertion is safe, and afterwards every
symbol returned so far is the one found for its string. -/
def RunsWell (A : Allocator) (calls : List Call) : Prop :=
  ∀ before c after, calls = before ++ c :: after →
    ∃ log m, Run A log m ∧ log.map Prod.fst = before ∧ PushSafe m c ∧
      ∃ p m', Returns m c p m' ∧
        ∀ x ∈ log ++ [(c, p)], judyFind m' x.1.str x.1.len = some x.2

/-- A new key that a key of the map begins: the loop looks at its leaf, and the
call never ends. -/
theorem diverges_of_begun {m : Judy A} {T : List UInt8 → Option Word} (h : Represents m T)
    {c : Call} (hk : T c.key = none) {k : List UInt8} {p : Word} (hp : T k = some p)
    (hb : Begins k c.key) (p' : Word) (m' : Judy A) : ¬ Returns m c p' m' := by
  have hfind : judyFind m c.str c.len = some 0 := by
    rw [judyFind_represents h, hk, Option.getD_none]
  intro hret
  have hlen := len_lt_of_returns hfind hret
  rcases hret with ⟨turns, hget⟩
  -- the loop meets the leaf of `k` after `k.length` turns, and stays there
  have hstuck := (push_stuck (m := m.withObj (.symbol ⟨c.len, c.key⟩)) hb
    (by rw [walk_withObj h.wf]; exact typeOf_of_key h hp)).1 turns
  rw [getsym_of_not_found hfind hlen, judyPush] at hget
  have hnot : (pushTurn^[turns] (pushStart (m.withObj (.symbol ⟨c.len, c.key⟩)) c.str c.len)).str
      ≠ [] := hstuck
  simp [hnot] at hget

/-- A new key that begins a key of the map: the slot of the last store is the
inner node above that key. -/
theorem not_pushSafe_of_begins {m : Judy A} {T : List UInt8 → Option Word} (h : Represents m T)
    {c : Call} (hk : T c.key = none) {k : List UInt8} {p : Word} (hp : T k = some p)
    (hb : Begins c.key k) (hlen : c.len < intMax) : ¬ PushSafe m c := by
  have hfind : judyFind m c.str c.len = some 0 := by
    rw [judyFind_represents h, hk, Option.getD_none]
  have hwalk := walk_withObj h.wf (.symbol ⟨c.len, c.key⟩)
  have htrie : typeOf (m.walk c.key) = judyTrieNode := (h.node _).mpr ⟨k, p, hp, hb⟩
  -- all nodes on the path of the key exist, so the loop only walks down
  obtain ⟨jp', hrun, hjp⟩ := push_descends (m := m.withObj (.symbol ⟨c.len, c.key⟩)) c.key []
    Judy.SlotAt.root fun q _ hq => trie_of_begins hq (by
      rw [List.nil_append, hwalk, htrie]
      decide)
  rw [List.append_nil] at hrun
  intro hsafe
  have hmake : makeSym m c.str c.len =
      some (m.heap.brk, m.withObj (.symbol ⟨c.len, c.key⟩)) := by
    rw [makeSym_eq, if_pos hlen]
  have hstart : pushTurn^[c.key.length] (pushStart (m.withObj (.symbol ⟨c.len, c.key⟩)) c.str c.len)
      = ⟨m.withObj (.symbol ⟨c.len, c.key⟩), jp', []⟩ := hrun
  refine (hsafe _ _ hfind hmake).2 c.key.length (by rw [hstart]) ?_
  rw [hstart, load_slotAt hjp, List.nil_append, hwalk]
  exact htrie

/-- Prefix-free keys of lengths below `INT_MAX` run well. -/
theorem runsWell_of_prefixFree {calls : List Call} (hfree : PrefixFree (keys calls))
    (hlen : ∀ c ∈ calls, c.len < intMax) : RunsWell A calls := by
  rintro before c after rfl
  have hfree₁ : PrefixFree (keys before ++ [c.key]) := by
    refine hfree.of_subset ?_
    rw [keys_append, keys_cons]
    simp
  obtain ⟨log, m, hrun, rfl⟩ := run_exists (A := A) before (prefixFree_append_singleton.mp hfree₁).1
    fun d hd => hlen d (by simp [hd])
  rcases run_refines hrun (prefixFree_append_singleton.mp hfree₁).1 with ⟨T, hruns, h⟩
  rcases call_refines hruns h hfree₁ (hlen c (by simp)) with ⟨hsafe, p, m', T', hret, hruns', h'⟩
  refine ⟨log, m, hrun, rfl, hsafe, p, m', hret, ?_⟩
  intro x hx
  have hx' : T' x.1.key = some x.2 :=
    (Interner.mem_iff hruns' _ _).mp (List.mem_map.mpr ⟨x, hx, rfl⟩)
  rw [judyFind_represents h', hx', Option.getD_some]

/-- Calls that run well have prefix-free keys and lengths below `INT_MAX`. The
induction is on the number of calls: up to the last one the table holds the
map of an interner. -/
theorem prefixFree_of_runsWell {calls : List Call} (hwell : RunsWell A calls) :
    PrefixFree (keys calls) ∧ ∀ c ∈ calls, c.len < intMax := by
  induction calls using List.reverseRecOn with
  | nil => exact ⟨prefixFree_nil, by simp⟩
  | append_singleton calls c ih =>
    obtain ⟨hfree, hlen⟩ := ih fun before d after hsplit =>
      hwell before d (after ++ [c]) (by rw [hsplit]; simp)
    rcases hwell calls c [] (by simp) with ⟨log, m, hrun, rfl, hsafe, p, m', hret, -⟩
    rcases run_refines hrun hfree with ⟨T, hruns, h⟩
    rw [keys_append, keys_cons, keys_nil, prefixFree_append_singleton]
    cases hk : T c.key with
    | some q =>
      -- the key was there already
      have hmem := mem_keys_of_find hruns hk
      refine ⟨⟨hfree, fun u hu => ⟨hfree u hu _ hmem, hfree _ hmem u hu⟩⟩, ?_⟩
      intro d hd
      rcases List.mem_append.mp hd with hd | hd
      · exact hlen d hd
      · rcases List.mem_map.mp hmem with ⟨e, he, hkey⟩
        have hlength := congrArg List.length hkey
        rw [e.key_length, c.key_length] at hlength
        rw [List.mem_singleton.mp hd]
        have := hlen e he
        omega
    | none =>
      -- a new key: the call returned, so no key begins it, and its last
      -- store was safe, so it begins none
      have hfind : judyFind m c.str c.len = some 0 := by
        rw [judyFind_represents h, hk, Option.getD_none]
      have hshort := len_lt_of_returns hfind hret
      refine ⟨⟨hfree, ?_⟩, ?_⟩
      · intro u hu
        rcases List.mem_map.mp hu with ⟨d, hd, rfl⟩
        rcases List.mem_map.mp hd with ⟨x, hx, rfl⟩
        have hfindx : T x.1.key = some x.2 :=
          (Interner.mem_iff hruns _ _).mp (List.mem_map.mpr ⟨x, hx, rfl⟩)
        exact ⟨fun hb => diverges_of_begun h hk hfindx hb _ _ hret,
          fun hb => not_pushSafe_of_begins h hk hfindx hb hshort hsafe⟩
      · intro d hd
        rcases List.mem_append.mp hd with hd | hd
        · exact hlen d hd
        · rw [List.mem_singleton.mp hd]
          exact hshort

/-- **When the table works.** A sequence of calls runs well exactly when no key
begins another and every length is below `INT_MAX`. -/
theorem runsWell_iff (A : Allocator) (calls : List Call) :
    RunsWell A calls ↔ PrefixFree (keys calls) ∧ ∀ c ∈ calls, c.len < intMax :=
  ⟨prefixFree_of_runsWell, fun h => runsWell_of_prefixFree h.1 h.2⟩

/-- `"a"` and then `"a\0b"`: both are terminated, but the second call never
ends. -/
theorem runsWell_counterexample :
    ¬ ∀ calls : List Call, (∀ c ∈ calls, c.str[c.len]? = some 0) →
      RunsWell Allocator.consecutive calls := by
  intro hall
  have hterminated : ∀ c ∈ ([⟨[97, 0], 1, by decide⟩, ⟨[97, 0, 98, 0], 3, by decide⟩] : List Call),
      c.str[c.len]? = some 0 := by
    intro c hc
    simp only [List.mem_cons, List.not_mem_nil, or_false] at hc
    rcases hc with rfl | rfl <;> decide
  have hfree := (prefixFree_of_runsWell (hall _ hterminated)).1
  -- the first key begins the second one
  exact hfree [97, 0] (by decide) [97, 0, 98, 0] (by decide) ⟨⟨[98, 0], rfl⟩, by decide⟩

end Jetlang.Sym
