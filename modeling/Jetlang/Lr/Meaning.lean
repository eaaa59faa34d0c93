import Jetlang.Lr.Apply

/-! # What the rules of a grammar mean

The meaning of a body in front of a text is what it matches there: how far it gets,
and the thunks it leaves. Nothing is remembered, and there are no contexts. `Means`
says it with one rule for each way to go.

A rule may begin with alternatives that begin with the rule itself. They are its
tails: the rule is what its base is, the alternatives without them, and then one
tail after the other, as long as the first one that matches gets further. What was
matched before a tail is the value of the rule in front of it.

Repetitions are those of the generated code. A turn that reads nothing is the last
one, and `+` does not count it.
-/

namespace Jetlang.Lr

variable {ρ α : Type}

/-- The tails of a rule, with the slot for the rule in front of each, and its base. -/
def Body.split [DecidableEq ρ] (r : ρ) : Body ρ α → List (Option ℕ × Body ρ α) × Body ρ α
  | .alt (.seq (.rule s slot) e) f =>
      if s = r then
        ((slot, e) :: (f.split r).1, (f.split r).2)
      else
        ([], .alt (.seq (.rule s slot) e) f)
  | e => ([], e)

/-- Without tails a body is its base. -/
theorem Body.split_nil [DecidableEq ρ] {r : ρ} {e : Body ρ α} (h : (e.split r).1 = []) :
    (e.split r).2 = e := by
  unfold Body.split at h ⊢
  split
  · rename_i s slot e f
    split
    · rename_i hs
      dsimp only at h
      rw [if_pos hs] at h
      cases h
    · rfl
  · rfl

/-- A tail is the first alternative, and the others are those of the second one. -/
theorem Body.split_cons [DecidableEq ρ] {r : ρ} {e a : Body ρ α} {slot : Option ℕ}
    {es : List (Option ℕ × Body ρ α)} (h : (e.split r).1 = (slot, a) :: es) :
    ∃ f : Body ρ α, e = .alt (.seq (.rule r slot) a) f ∧ (f.split r).1 = es ∧
      (f.split r).2 = (e.split r).2 := by
  unfold Body.split at h
  split at h
  · rename_i s slot' e f
    split at h
    · rename_i hs
      subst hs
      cases h
      refine ⟨f, rfl, rfl, ?_⟩
      rw [Body.split, if_pos rfl]
    · cases h
  · cases h

/-- What may have a meaning: a body in a chunk that begins at `start`, a rule, and the
tails of a rule behind what it has matched so far, one of them or as many as match. -/
inductive Goal (ρ α : Type) where
  | body (start : ℕ) (e : Body ρ α) (p : ℕ)
  | rule (r : ρ) (p : ℕ)
  | tail (start : ℕ) (es : List (Option ℕ × Body ρ α)) (q : ℕ) (ts : List (Pcc.Thunk α))
  | tails (start : ℕ) (es : List (Option ℕ × Body ρ α)) (q : ℕ) (ts : List (Pcc.Thunk α))

/-- The position it is at. -/
def Goal.pos : Goal ρ α → ℕ
  | .body _ _ p => p
  | .rule _ p => p
  | .tail _ _ q _ => q
  | .tails _ _ q _ => q

section Means

variable [DecidableEq ρ]

/-- What there is comes to a position behind a match and to its thunks, or to a failure.
Rules are nested less than `n` deep. -/
inductive Means (g : ρ → Body ρ α) (text : List UInt8) :
    ℕ → Goal ρ α → Option (ℕ × List (Pcc.Thunk α)) → Prop where
  | char {n start p : ℕ} {f : UInt8 → Bool} {c : UInt8} : text[p]? = some c → f c = true →
      Means g text n (.body start (.charClass f) p) (some (p + 1, []))
  | noChar {n start p : ℕ} {f : UInt8 → Bool} : (∀ c, text[p]? = some c → f c = false) →
      Means g text n (.body start (.charClass f) p) none
  | string {n start p : ℕ} {s : List UInt8} : (text.drop p).take s.length = s →
      Means g text n (.body start (.string s) p) (some (p + s.length, []))
  | noString {n start p : ℕ} {s : List UInt8} : (text.drop p).take s.length ≠ s →
      Means g text n (.body start (.string s) p) none
  | seq {n start p q : ℕ} {e f : Body ρ α} {ts : List (Pcc.Thunk α)}
      {res : Option (ℕ × List (Pcc.Thunk α))} : Means g text n (.body start e p) (some (q, ts)) →
      Means g text n (.body start f q) res →
      Means g text n (.body start (.seq e f) p) (res.map fun x => (x.1, ts ++ x.2))
  | noSeq {n start p : ℕ} {e f : Body ρ α} : Means g text n (.body start e p) none →
      Means g text n (.body start (.seq e f) p) none
  | left {n start p : ℕ} {e f : Body ρ α} {x : ℕ × List (Pcc.Thunk α)} :
      Means g text n (.body start e p) (some x) →
      Means g text n (.body start (.alt e f) p) (some x)
  | right {n start p : ℕ} {e f : Body ρ α} {res : Option (ℕ × List (Pcc.Thunk α))} :
      Means g text n (.body start e p) none → Means g text n (.body start f p) res →
      Means g text n (.body start (.alt e f) p) res
  | starEnd {n start p : ℕ} {e : Body ρ α} : Means g text n (.body start e p) none →
      Means g text n (.body start (.star e) p) (some (p, []))
  | starStill {n start p : ℕ} {e : Body ρ α} {ts : List (Pcc.Thunk α)} :
      Means g text n (.body start e p) (some (p, ts)) →
      Means g text n (.body start (.star e) p) (some (p, ts))
  | starMore {n start p q r : ℕ} {e : Body ρ α} {ts us : List (Pcc.Thunk α)} :
      Means g text n (.body start e p) (some (q, ts)) → q ≠ p →
      Means g text n (.body start (.star e) q) (some (r, us)) →
      Means g text n (.body start (.star e) p) (some (r, ts ++ us))
  | noPlus {n start p : ℕ} {e : Body ρ α} : Means g text n (.body start e p) none →
      Means g text n (.body start (.plus e) p) none
  | plusStill {n start p : ℕ} {e : Body ρ α} {ts : List (Pcc.Thunk α)} :
      Means g text n (.body start e p) (some (p, ts)) →
      Means g text n (.body start (.plus e) p) none
  | plus {n start p q r : ℕ} {e : Body ρ α} {ts us : List (Pcc.Thunk α)} :
      Means g text n (.body start e p) (some (q, ts)) → q ≠ p →
      Means g text n (.body start (.star e) q) (some (r, us)) →
      Means g text n (.body start (.plus e) p) (some (r, ts ++ us))
  | apply {n start p : ℕ} {r : ρ} {slot : Option ℕ} {res : Option (ℕ × List (Pcc.Thunk α))} :
      Means g text n (.rule r p) res →
      Means g text (n + 1) (.body start (.rule r slot) p)
        (res.map fun x => (x.1, [.node x.2 slot]))
  | emit {n start p : ℕ} {action : α} :
      Means g text n (.body start (.emit action) p) (some (p, [.leaf action start p]))
  | noBase {n p : ℕ} {r : ρ} : Means g text n (.body p ((g r).split r).2 p) none →
      Means g text n (.rule r p) none
  | base {n p q : ℕ} {r : ρ} {ts : List (Pcc.Thunk α)} {res : Option (ℕ × List (Pcc.Thunk α))} :
      Means g text n (.body p ((g r).split r).2 p) (some (q, ts)) →
      Means g text n (.tails p ((g r).split r).1 q ts) res → Means g text n (.rule r p) res
  | noTail {n start q : ℕ} {ts : List (Pcc.Thunk α)} : Means g text n (.tail start [] q ts) none
  | tail {n start q q' : ℕ} {slot : Option ℕ} {e : Body ρ α} {es : List (Option ℕ × Body ρ α)}
      {ts us : List (Pcc.Thunk α)} : Means g text n (.body start e q) (some (q', us)) →
      Means g text n (.tail start ((slot, e) :: es) q ts) (some (q', .node ts slot :: us))
  | nextTail {n start q : ℕ} {slot : Option ℕ} {e : Body ρ α} {es : List (Option ℕ × Body ρ α)}
      {ts : List (Pcc.Thunk α)} {res : Option (ℕ × List (Pcc.Thunk α))} :
      Means g text n (.body start e q) none → Means g text n (.tail start es q ts) res →
      Means g text n (.tail start ((slot, e) :: es) q ts) res
  | last {n start q : ℕ} {es : List (Option ℕ × Body ρ α)} {ts : List (Pcc.Thunk α)}
      {res : Option (ℕ × List (Pcc.Thunk α))} : Means g text n (.tail start es q ts) res →
      (∀ x ∈ res, x.1 ≤ q) → Means g text n (.tails start es q ts) (some (q, ts))
  | more {n start q q' : ℕ} {es : List (Option ℕ × Body ρ α)} {ts us : List (Pcc.Thunk α)}
      {res : Option (ℕ × List (Pcc.Thunk α))} :
      Means g text n (.tail start es q ts) (some (q', us)) → q < q' →
      Means g text n (.tails start es q' us) res → Means g text n (.tails start es q ts) res

variable {g : ρ → Body ρ α} {text : List UInt8} {n m : ℕ} {j : Goal ρ α}
  {res res' : Option (ℕ × List (Pcc.Thunk α))}

/-- More depth does no harm. -/
theorem Means.mono (h : Means g text n j res) (hle : n ≤ m) : Means g text m j res := by
  induction h generalizing m with
  | char hc hf => exact .char hc hf
  | noChar hno => exact .noChar hno
  | string hs => exact .string hs
  | noString hs => exact .noString hs
  | seq _ _ he hf => exact .seq (he hle) (hf hle)
  | noSeq _ he => exact .noSeq (he hle)
  | left _ he => exact .left (he hle)
  | right _ _ he hf => exact .right (he hle) (hf hle)
  | starEnd _ he => exact .starEnd (he hle)
  | starStill _ he => exact .starStill (he hle)
  | starMore _ hne _ he hstar => exact .starMore (he hle) hne (hstar hle)
  | noPlus _ he => exact .noPlus (he hle)
  | plusStill _ he => exact .plusStill (he hle)
  | plus _ hne _ he hstar => exact .plus (he hle) hne (hstar hle)
  | apply _ hr =>
    obtain ⟨k, rfl⟩ : ∃ k, m = k + 1 := ⟨m - 1, by omega⟩
    exact .apply (hr (Nat.le_of_succ_le_succ hle))
  | emit => exact .emit
  | noBase _ hb => exact .noBase (hb hle)
  | base _ _ hb ht => exact .base (hb hle) (ht hle)
  | noTail => exact .noTail
  | tail _ he => exact .tail (he hle)
  | nextTail _ _ he hes => exact .nextTail (he hle) (hes hle)
  | last _ hno ht => exact .last (ht hle) hno
  | more _ hlt _ ht hmore => exact .more (ht hle) hlt (hmore hle)

/-- **There is one meaning.** -/
theorem Means.unique (h : Means g text n j res) (h' : Means g text m j res') : res = res' := by
  -- the other derivation has the same case, or one whose part has another result
  induction h generalizing m res' with
  | char hc hf =>
    cases h' with
    | char _ _ => rfl
    | noChar hno => exact absurd hf (by rw [hno _ hc]; exact Bool.false_ne_true)
  | noChar hno =>
    cases h' with
    | char hc hf => exact absurd hf (by rw [hno _ hc]; exact Bool.false_ne_true)
    | noChar _ => rfl
  | string hs =>
    cases h' with
    | string _ => rfl
    | noString hs' => exact absurd hs hs'
  | noString hs =>
    cases h' with
    | string hs' => exact absurd hs' hs
    | noString _ => rfl
  | seq _ _ he hf =>
    cases h' with
    | seq he' hf' =>
      cases he he'
      rw [hf hf']
    | noSeq he' => cases he he'
  | noSeq _ he =>
    cases h' with
    | seq he' _ => cases he he'
    | noSeq _ => rfl
  | left _ he =>
    cases h' with
    | left he' => exact he he'
    | right he' _ => cases he he'
  | right _ _ he hf =>
    cases h' with
    | left he' => cases he he'
    | right _ hf' => exact hf hf'
  | starEnd _ he =>
    cases h' with
    | starEnd _ => rfl
    | starStill he' => cases he he'
    | starMore he' _ _ => cases he he'
  | starStill _ he =>
    cases h' with
    | starEnd he' => cases he he'
    | starStill he' => exact he he'
    | starMore he' hne' _ =>
      cases he he'
      exact absurd rfl hne'
  | starMore _ hne _ he hstar =>
    cases h' with
    | starEnd he' => cases he he'
    | starStill he' =>
      cases he he'
      exact absurd rfl hne
    | starMore he' _ hstar' =>
      cases he he'
      cases hstar hstar'
      rfl
  | noPlus _ he =>
    cases h' with
    | noPlus _ => rfl
    | plusStill he' => cases he he'
    | plus he' _ _ => cases he he'
  | plusStill _ he =>
    cases h' with
    | noPlus _ => rfl
    | plusStill _ => rfl
    | plus he' hne' _ =>
      cases he he'
      exact absurd rfl hne'
  | plus _ hne _ he hstar =>
    cases h' with
    | noPlus he' => cases he he'
    | plusStill he' =>
      cases he he'
      exact absurd rfl hne
    | plus he' _ hstar' =>
      cases he he'
      cases hstar hstar'
      rfl
  | apply _ hr =>
    cases h' with
    | apply hr' => rw [hr hr']
  | emit =>
    cases h' with
    | emit => rfl
  | noBase _ hb =>
    cases h' with
    | noBase _ => rfl
    | base hb' _ => cases hb hb'
  | base _ _ hb ht =>
    cases h' with
    | noBase hb' => cases hb hb'
    | base hb' ht' =>
      cases hb hb'
      exact ht ht'
  | noTail =>
    cases h' with
    | noTail => rfl
  | tail _ he =>
    cases h' with
    | tail he' =>
      cases he he'
      rfl
    | nextTail he' _ => cases he he'
  | nextTail _ _ he hes =>
    cases h' with
    | tail he' => cases he he'
    | nextTail _ hes' => exact hes hes'
  | last _ hno ht =>
    cases h' with
    | last _ _ => rfl
    | more ht' hlt' _ =>
      cases ht ht'
      exact absurd (hno _ rfl) (Nat.not_le.mpr hlt')
  | more _ hlt _ ht hmore =>
    cases h' with
    | last ht' hno' =>
      cases ht ht'
      exact absurd (hno' _ rfl) (Nat.not_le.mpr hlt)
    | more ht' _ hmore' =>
      cases ht ht'
      exact hmore hmore'

/-- A match goes forwards, and stays in the text. -/
theorem Means.within (h : Means g text n j res) (hp : j.pos ≤ text.length) :
    ∀ x ∈ res, j.pos ≤ x.1 ∧ x.1 ≤ text.length := by
  -- one match behind another one
  have htrans : ∀ {p q : ℕ} {res : Option (ℕ × List (Pcc.Thunk α))}, p ≤ q →
      (∀ x ∈ res, q ≤ x.1 ∧ x.1 ≤ text.length) → ∀ x ∈ res, p ≤ x.1 ∧ x.1 ≤ text.length :=
    fun hpq hres x hx => ⟨Nat.le_trans hpq (hres x hx).1, (hres x hx).2⟩
  induction h with
  | char hc _ =>
    intro x hx
    cases hx
    exact ⟨Nat.le_succ _, (List.getElem?_eq_some_iff.mp hc).1⟩
  | @string _ _ p s hs =>
    intro x hx
    cases hx
    have hlen := congrArg List.length hs
    rw [List.length_take, List.length_drop] at hlen
    simp only [Goal.pos] at hp ⊢
    omega
  | seq _ _ he hf =>
    intro x hx
    rcases Option.map_eq_some_iff.mp hx with ⟨y, hy, rfl⟩
    have he' := he hp _ rfl
    exact htrans he'.1 (hf he'.2) y hy
  | left _ he => exact he hp
  | right _ _ _ hf => exact hf hp
  | starStill _ he => exact he hp
  | starMore _ _ _ he hstar =>
    intro x hx
    cases hx
    have he' := he hp _ rfl
    have hstar' := hstar he'.2 _ rfl
    exact ⟨Nat.le_trans he'.1 hstar'.1, hstar'.2⟩
  | plus _ _ _ he hstar =>
    intro x hx
    cases hx
    have he' := he hp _ rfl
    have hstar' := hstar he'.2 _ rfl
    exact ⟨Nat.le_trans he'.1 hstar'.1, hstar'.2⟩
  | apply _ hr =>
    intro x hx
    rcases Option.map_eq_some_iff.mp hx with ⟨y, hy, rfl⟩
    exact hr hp y hy
  | base _ _ hb ht =>
    have hb' := hb hp _ rfl
    exact htrans hb'.1 (ht hb'.2)
  | tail _ he =>
    intro x hx
    cases hx
    have he' := he hp _ rfl
    exact he'
  | nextTail _ _ _ hes => exact hes hp
  | more _ _ _ ht hmore =>
    have ht' := ht hp _ rfl
    exact htrans ht'.1 (hmore ht'.2)
  | starEnd _ _ =>
    intro x hx
    cases hx
    exact ⟨Nat.le_refl _, hp⟩
  | emit =>
    intro x hx
    cases hx
    exact ⟨Nat.le_refl _, hp⟩
  | last _ _ _ =>
    intro x hx
    cases hx
    exact ⟨Nat.le_refl _, hp⟩
  | noChar _ => exact fun x hx => by cases hx
  | noString _ => exact fun x hx => by cases hx
  | noSeq _ _ => exact fun x hx => by cases hx
  | noPlus _ _ => exact fun x hx => by cases hx
  | plusStill _ _ => exact fun x hx => by cases hx
  | noBase _ _ => exact fun x hx => by cases hx
  | noTail => exact fun x hx => by cases hx

end Means

end Jetlang.Lr
