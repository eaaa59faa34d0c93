import Jetlang.Lib.Julia
import Jetlang.Sym.Interning

/-! # `Csymbol`, the Julia view of a symbol

`Csymbol(::String)` hands the bytes of a string to `getsym`, with the number of
its *characters* as the length. The other functions read the symbol back, byte
by byte. A Julia string is the list of its characters here, stored as its code
units and a zero byte.
-/

namespace Jetlang.Sym

open Mem Julia

variable {A : Allocator}

/-! ## The constructor -/

theorem length_lt_buffer (s : List Char) : s.length < (codeunits s ++ [0]).length := by
  have := length_le_codeunits s
  rw [List.length_append, List.length_singleton]
  omega

/-- `Csymbol(::String)` up to its call of `getsym`: the assertion, then the
conversion `Cint(len)`. -/
def csymbol (str : List Char) : Except Exn Call :=
  let len := str.length
  if (codeunits str ++ [0])[len]? = some 0 then
    if len ≤ intMax then
      .ok ⟨codeunits str ++ [0], len, length_lt_buffer str⟩
    else
      .error .inexact
  else
    .error .assertion

/-- `Csymbol(str)` is refused by its assertion. -/
def Refuses (str : List Char) : Prop := csymbol str = .error .assertion

/-- On a freshly initialised table `Csymbol(str)` returns the symbol at `ptr`
and leaves the table `m`. -/
def Constructs (A : Allocator) (str : List Char) (ptr : Word) (m : Judy A) : Prop :=
  ∃ c, csymbol str = .ok c ∧ Returns judyInit c ptr m

/-! ## Reading a symbol -/

/-- `ncodeunits(sym)`. -/
def Symbol.ncodeunits (sym : Symbol) : ℕ := sym.len

/-- `length(sym)`. -/
def Symbol.length (sym : Symbol) : ℕ := sym.ncodeunits

/-- `checkbounds(Bool, sym, i)`. -/
def Symbol.InBounds (sym : Symbol) (i : ℕ) : Prop := 1 ≤ i ∧ i ≤ sym.ncodeunits

instance (sym : Symbol) (i : ℕ) : Decidable (sym.InBounds i) := by
  unfold Symbol.InBounds
  infer_instance

/-- `codeunit(sym, i)`, and `sym[i]`. Indices start at 1, and the data part is
read as `Cchar`. -/
def Symbol.codeunit (sym : Symbol) (i : ℕ) : Except Exn Char :=
  if sym.InBounds i then
    charOfCchar (sym.data.getD (i - 1) 0)
  else
    .error .bounds

/-- `iterate(sym, i)`. -/
def Symbol.iterate (sym : Symbol) (i : ℕ) : Except Exn (Option (Char × ℕ)) :=
  if sym.InBounds i then do
    let c ← sym.codeunit i
    return some (c, i + 1)
  else
    return none

theorem Symbol.iterate_next {sym : Symbol} {i j : ℕ} {c : Char}
    (h : sym.iterate i = .ok (some (c, j))) : i ≤ sym.ncodeunits ∧ j = i + 1 := by
  unfold iterate at h
  split at h
  · rename_i hi
    cases hc : sym.codeunit i with
    | error e =>
      rw [hc] at h
      cases h
    | ok d =>
      rw [hc] at h
      cases h
      exact ⟨hi.2, rfl⟩
  · cases h

/-- `collect(sym)`, from index `i` on. -/
def Symbol.collectFrom (sym : Symbol) (i : ℕ) : Except Exn (List Char) :=
  match _hnext : sym.iterate i with
  | .error e => .error e
  | .ok none => .ok []
  | .ok (some (c, j)) =>
      match sym.collectFrom j with
      | .error e => .error e
      | .ok cs => .ok (c :: cs)
termination_by sym.ncodeunits + 1 - i
decreasing_by
  rcases Symbol.iterate_next _hnext with ⟨hi, rfl⟩
  omega

/-- `collect(sym)`. -/
def Symbol.collect (sym : Symbol) : Except Exn (List Char) := sym.collectFrom 1

/-- `string(sym)`, as the code units of the result. -/
def Symbol.string (sym : Symbol) : List UInt8 := sym.data.take sym.length

theorem Symbol.collectFrom_error {sym : Symbol} {i : ℕ} {e : Exn} (h : sym.iterate i = .error e) :
    sym.collectFrom i = .error e := by
  rw [collectFrom]
  split <;> simp_all

theorem Symbol.collectFrom_done {sym : Symbol} {i : ℕ} (h : sym.iterate i = .ok none) :
    sym.collectFrom i = .ok [] := by
  rw [collectFrom]
  split <;> simp_all

theorem Symbol.collectFrom_next {sym : Symbol} {i j : ℕ} {c : Char}
    (h : sym.iterate i = .ok (some (c, j))) :
    sym.collectFrom i = (sym.collectFrom j).map (c :: ·) := by
  rw [collectFrom]
  split
  · simp_all
  · simp_all
  · rename_i hi
    rw [hi] at h
    cases h
    cases sym.collectFrom j <;> rfl

/-- `collect` converts the bytes of the symbol one by one. The induction is on
the bytes left. -/
theorem Symbol.collectFrom_eq {sym : Symbol} (hlen : sym.ncodeunits ≤ sym.data.length) (n : ℕ) :
    sym.collectFrom (n + 1) = (sym.string.drop n).mapM charOfCchar := by
  have hstring : sym.string.length = sym.ncodeunits := List.length_take_of_le hlen
  induction hd : sym.ncodeunits - n generalizing n with
  | zero =>
    -- at the end: the index is out of bounds, and no byte is left
    have hout : ¬ sym.InBounds (n + 1) := fun h => by
      have := h.2
      omega
    rw [List.drop_eq_nil_iff.mpr (by omega), collectFrom_done (if_neg hout)]
    rfl
  | succ d ih =>
    -- one turn reads the first byte left
    have hin : sym.InBounds (n + 1) := ⟨by omega, by omega⟩
    have hlt : n < sym.string.length := by omega
    have hbyte : sym.data.getD n 0 = sym.string[n] := by
      have hdata : n < sym.data.length := by omega
      rw [List.getD_eq_getElem?_getD, List.getElem?_eq_getElem hdata, Option.getD_some]
      exact (List.getElem_take ..).symm
    have hunit : sym.codeunit (n + 1) = charOfCchar sym.string[n] := by
      unfold codeunit
      rw [if_pos hin, Nat.add_sub_cancel, hbyte]
    have hnext : sym.iterate (n + 1) =
        (charOfCchar sym.string[n]).map fun c => some (c, n + 2) := by
      unfold iterate
      rw [if_pos hin, hunit]
      cases charOfCchar sym.string[n] <;> rfl
    rw [List.drop_eq_getElem_cons hlt, List.mapM_cons]
    cases hc : charOfCchar sym.string[n] with
    | error e =>
      rw [hc] at hnext
      exact collectFrom_error hnext
    | ok c =>
      rw [hc] at hnext
      rw [collectFrom_next hnext, ih (n + 1) (by omega)]
      cases (sym.string.drop (n + 1)).mapM charOfCchar <;> rfl

/-! ## Strings through the table -/

/-- The symbol at `ptr` reads back as the string. -/
def ReadsBack (m : Judy A) (ptr : Word) (str : List Char) : Prop :=
  ∃ sym, m.symbol ptr = some sym ∧ sym.string = codeunits str ∧ sym.length = str.length ∧
    sym.collect = .ok str

/-- A string is refused by the assertion or becomes a symbol that reads back as
the string; and a string without a zero byte is not refused. -/
def Survives (A : Allocator) (str : List Char) : Prop :=
  (Refuses str ∨ ∃ ptr, ∃ m : Judy A, Constructs A str ptr m ∧ ReadsBack m ptr str) ∧
    ((0 : UInt8) ∉ codeunits str → ¬ Refuses str)

/-- Only the assertion refuses. -/
theorem refuses_iff (str : List Char) :
    Refuses str ↔ (codeunits str ++ [0])[str.length]? ≠ some 0 := by
  unfold Refuses csymbol
  by_cases hzero : (codeunits str ++ [0])[str.length]? = some 0
  · by_cases hlen : str.length ≤ intMax <;> simp [hzero, hlen]
  · simp [hzero]

/-- A string that is not refused and short enough becomes a symbol. -/
theorem constructs_of_short (A : Allocator) {str : List Char} (hzero : ¬ Refuses str)
    (hlen : str.length < intMax) : ∃ ptr, ∃ m : Judy A, Constructs A str ptr m := by
  rw [refuses_iff, not_not] at hzero
  have hcall : csymbol str = .ok ⟨codeunits str ++ [0], str.length, length_lt_buffer str⟩ := by
    unfold csymbol
    simp only [if_pos hzero, if_pos (Nat.le_of_lt hlen)]
  obtain ⟨-, m, hret, -⟩ := returns_miss (A := A) represents_init rfl (by simp)
    (show (Call.mk _ _ (length_lt_buffer str)).len < intMax from hlen)
  exact ⟨_, m, _, hcall, hret⟩

/-- The symbol made of a string holds the first `length(str)` code units. -/
theorem symbol_of_constructs {str : List Char} {ptr : Word} {m : Judy A}
    (h : Constructs A str ptr m) : ¬ Refuses str ∧ str.length < intMax ∧
      ∃ sym, m.symbol ptr = some sym ∧ sym.len = str.length ∧ sym.len < sym.data.length ∧
        sym.string = (codeunits str).take str.length := by
  rcases h with ⟨c, hcall, hret⟩
  have hrefuses : ¬ Refuses str := fun hr => by
    rw [hr] at hcall
    cases hcall
  have hc : c = ⟨codeunits str ++ [0], str.length, length_lt_buffer str⟩ := by
    unfold csymbol at hcall
    dsimp only at hcall
    split at hcall
    · split at hcall
      · exact (Except.ok.inj hcall).symm
      · cases hcall
    · cases hcall
  have hfind : judyFind (judyInit : Judy A) c.str c.len = some 0 :=
    judyFind_represents represents_init c
  have hlen := len_lt_of_returns hfind hret
  rcases returns_miss (A := A) (c := c) represents_init rfl (by simp) hlen with ⟨-, m', hret', hrep⟩
  -- the table is empty, so the call is an insertion
  rcases returns_unique hret hret' with ⟨rfl, rfl⟩
  have hsym := symbol_of_cells (hrep.symbol c.key _ (Function.update_self ..))
  rw [c.key_length, Nat.add_sub_cancel] at hsym
  refine ⟨hrefuses, ?_, _, hsym, ?_, ?_, ?_⟩
  · rw [hc] at hlen
    exact hlen
  · rw [hc]
  · show c.len < c.key.length
    rw [c.key_length]
    exact Nat.lt_succ_self _
  · show c.key.take c.len = _
    have hle := length_le_codeunits str
    rw [Call.key, List.take_take, hc, Nat.min_eq_left (Nat.le_succ _),
      List.take_append_of_le_length hle]

/-- Only the symbol of an ASCII string reads back as the string. -/
theorem readsBack_iff {str : List Char} {ptr : Word} {m : Judy A} (h : Constructs A str ptr m) :
    ReadsBack m ptr str ↔ Ascii str := by
  rcases symbol_of_constructs h with ⟨-, -, sym, hsym, hlen, hdata, hstring⟩
  have hle := length_le_codeunits str
  constructor
  · rintro ⟨sym', hsym', hstring', -, -⟩
    obtain rfl : sym = sym' := Option.some.inj (hsym.symm.trans hsym')
    -- as many code units as characters
    have htake := congrArg List.length (hstring.symm.trans hstring')
    rw [List.length_take] at htake
    exact (ascii_iff_length str).mpr (by omega)
  · intro hascii
    have hall : sym.string = codeunits str := by
      rw [hstring, ← (ascii_iff_length str).mp hascii, List.take_length]
    refine ⟨sym, hsym, hall, hlen, ?_⟩
    show sym.collectFrom (0 + 1) = _
    rw [Symbol.collectFrom_eq (Nat.le_of_lt hdata), hall, List.drop_zero,
      mapM_charOfCchar hascii]

/-- **Which strings survive.** Exactly the ASCII strings shorter than `INT_MAX`,
and those refused although they do contain a zero byte. -/
theorem survives_iff (A : Allocator) (str : List Char) :
    Survives A str ↔
      (Ascii str ∧ str.length < intMax) ∨
        ((0 : UInt8) ∈ codeunits str ∧ (codeunits str ++ [0])[str.length]? ≠ some 0) := by
  rw [← refuses_iff]
  constructor
  · rintro ⟨hrefused | ⟨ptr, m, hcons, hback⟩, hfree⟩
    · refine Or.inr ⟨?_, hrefused⟩
      by_contra hzero
      exact hfree hzero hrefused
    · exact Or.inl ⟨(readsBack_iff hcons).mp hback, (symbol_of_constructs hcons).2.1⟩
  · rintro (⟨hascii, hlen⟩ | ⟨hzero, hrefused⟩)
    · have hnot : ¬ Refuses str := by
        rw [refuses_iff, ← (ascii_iff_length str).mp hascii]
        simp
      rcases constructs_of_short A hnot hlen with ⟨ptr, m, hcons⟩
      exact ⟨Or.inr ⟨ptr, m, hcons, (readsBack_iff hcons).mpr hascii⟩, fun _ => hnot⟩
    · exact ⟨Or.inl hrefused, fun hfree => absurd hzero hfree⟩

/-- `"é"` has no zero byte, and is refused: its length is 1 and its second byte
is not zero. -/
theorem survives_counterexample : ¬ ∀ str, Survives Allocator.consecutive str := by
  intro h
  refine (h ['é']).2 (by decide) ?_
  rw [refuses_iff]
  decide

end Jetlang.Sym
