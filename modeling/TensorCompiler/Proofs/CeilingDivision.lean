import Mathlib
import TensorCompiler.Proofs.Calculations
/-!
# Division rounding up

A known dimension is divided at once. A symbolic one is raised by `k - 1` and then divided by `k`,
in two checked steps, and the first of them can overflow although the quotient is a word. Nothing
else sets the two apart: where the symbolic quotient has a value, it is the right one.

* `Dim.ceilDiv?_makes_iff`: the two ways to divide.
* `Dim.form_of_ceilDiv?`: what a quotient looks like.
* `Dim.resolve_of_ceilDiv?`: the value of a quotient, under every valuation.
* `Dim.resolve_ceilDiv`: there is a quotient by every divisor but zero, and its value is that of the
  dimension, divided and rounded up. It is missing only where a symbolic dimension cannot be raised.
* `Dim.halved_greatest`: the greatest word can be halved if it is known, and cannot be if it is the
  value of a symbol.
-/

namespace TensorCompiler

theorem add_pred_div {n d : Nat} (hd : 0 < d) : (n + (d - 1)) / d = n ⌈/⌉ d := by
  rw [Nat.ceilDiv_eq_add_pred_div, Nat.add_sub_assoc hd]

namespace Dim

variable {env : Valuation} {x d : Dim} {k n : Nat} {s s' : Supply}

theorem ceilDiv?_known (hk : 1 ≤ k) : ceilDiv? (known n) k = pure (some (known (n ⌈/⌉ k))) := by
  rw [ceilDiv?, if_neg (Nat.ne_of_gt hk), add_pred_div hk]

theorem ceilDiv?_symbolic (hk : 1 ≤ k) (hx : x.known? = none) : ceilDiv? x k = do
    let raised ← combine .add x (known (k - 1))
    return some (← combine .div raised (known k)) := by
  unfold ceilDiv?
  rw [if_neg (Nat.ne_of_gt hk)]
  cases x with
  | known n => cases hx
  | free a => rfl
  | derived i op y z => rfl

/-- Known dimensions are divided in one step, symbolic ones in two. -/
theorem ceilDiv?_makes_iff (hk : 1 ≤ k) : Makes (ceilDiv? x k) s (some d) s' ↔
    (∃ n, x = known n ∧ d = known (n ⌈/⌉ k) ∧ s = s') ∨
    x.known? = none ∧ ∃ raised s₁, Makes (combine .add x (known (k - 1))) s raised s₁ ∧
      Makes (combine .div raised (known k)) s₁ d s' := by
  cases hx : x.known? with
  | some n =>
    obtain rfl := known?_eq_some_iff.1 hx
    rw [ceilDiv?_known hk, makes_pure_iff]
    simp [eq_comm]
  | none =>
    have hsymbol : ∀ n, x ≠ known n := fun n hn => by simp [hn, known?] at hx
    rw [ceilDiv?_symbolic hk hx]
    simp only [makes_bind_iff, makes_pure_iff]
    simp [hsymbol]

theorem named_ceilDiv? {σ : Names} (hx : x.Named σ s.next) (hk : 1 ≤ k)
    (h : Makes (ceilDiv? x k) s (some d) s') : ∃ τ, Grows σ s τ s' ∧ d.Named τ s'.next := by
  rcases (ceilDiv?_makes_iff hk).1 h with ⟨n, -, rfl, rfl⟩ | ⟨-, raised, s₁, hraised, hd⟩
  · exact ⟨σ, .refl σ s, named_known σ _ _⟩
  · obtain ⟨τ, hτ, hnamed⟩ := named_combine hx (named_known σ _ _) hraised
    obtain ⟨ρ, hρ, hnamed⟩ := named_combine hnamed (named_known τ _ _) hd
    exact ⟨ρ, hτ.trans hρ, hnamed⟩

theorem exists_ceilDiv? (x : Dim) (hk : 1 ≤ k) (s : Supply) :
    ∃ d s', Makes (ceilDiv? x k) s (some d) s' := by
  cases hx : x.known? with
  | some n =>
    obtain rfl := known?_eq_some_iff.1 hx
    exact ⟨_, s, (ceilDiv?_makes_iff hk).2 (.inl ⟨n, rfl, rfl, rfl⟩)⟩
  | none => exact ⟨_, _, (ceilDiv?_makes_iff hk).2 (.inr ⟨hx, _, _, rfl, rfl⟩)⟩

theorem simplify?_add_known (hx : x.known? = none) :
    simplify? .add x (known n) = if n = 0 then some x else none := by
  rw [simplify?, hx]
  rfl

theorem simplify?_div_known (hx : x.known? = none) :
    simplify? .div x (known n) = if n = 1 then some x else none := by
  rw [simplify?, hx]
  rfl

/-- Both steps of dividing a symbolic dimension give it back if the divisor is one, and become
symbols otherwise. -/
theorem form_of_ceilDiv? (hk : 1 ≤ k) (h : Makes (ceilDiv? x k) s (some d) s') :
    (∃ n, x = known n ∧ d = known (n ⌈/⌉ k)) ∨
    x.known? = none ∧ k = 1 ∧ d = x ∨
    x.known? = none ∧ k ≠ 1 ∧
      ∃ i j, d = derived j .div (derived i .add x (known (k - 1))) (known k) := by
  rcases (ceilDiv?_makes_iff hk).1 h with ⟨n, hx, hd, -⟩ | ⟨hx, raised, s₁, hraised, hd⟩
  · exact .inl ⟨n, hx, hd⟩
  rw [combine_makes_iff, simplify?_add_known hx] at hraised
  rw [combine_makes_iff] at hd
  by_cases hone : k = 1
  · obtain ⟨rfl, -⟩ : x = raised ∧ s = s₁ := by simpa [hone] using hraised
    rw [simplify?_div_known hx] at hd
    obtain ⟨rfl, -⟩ : x = d ∧ s₁ = s' := by simpa [hone] using hd
    exact .inr (.inl ⟨hx, hone, rfl⟩)
  · have hpos : k - 1 ≠ 0 := by omega
    obtain ⟨rfl, -⟩ : raised = derived s.next .add x (known (k - 1)) ∧ s₁ = ⟨s.next + 1⟩ := by
      simpa [hpos] using hraised
    rw [simplify?_div_known rfl, if_neg hone] at hd
    obtain ⟨hd, -⟩ | ⟨-, hd, -⟩ := hd
    · cases hd
    · exact .inr (.inr ⟨hx, hone, _, _, hd⟩)

/-- The value of a quotient is that of the dimension, divided and rounded up, but for a symbolic
dimension that cannot be raised. -/
theorem resolve_of_ceilDiv? (hk : 1 ≤ k) (h : Makes (ceilDiv? x k) s (some d) s') :
    d.resolve env = (x.resolve env).bind fun n =>
      if x.isKnown = true ∨ k = 1 ∨ n + (k - 1) < wordLimit then some (n ⌈/⌉ k) else none := by
  rcases form_of_ceilDiv? hk h with ⟨n, rfl, rfl⟩ | ⟨-, rfl, rfl⟩ | ⟨hx, hone, i, j, rfl⟩
  · simp [resolve, isKnown, known?]
  · cases d.resolve env <;> simp
  · cases hvalue : x.resolve env with
    | none => simp [resolve, hvalue]
    | some n =>
      have hsymbol : x.isKnown = false := by rw [isKnown, hx]; rfl
      by_cases hfits : n + (k - 1) < wordLimit
      · have hraised : Arith.add.apply n (k - 1) = some (n + (k - 1)) := if_pos hfits
        have hdivided : Arith.div.apply (n + (k - 1)) k = some (n ⌈/⌉ k) := by
          rw [Arith.apply, if_neg (Nat.ne_of_gt hk), add_pred_div hk]
        simp [resolve, hvalue, hraised, hdivided, hfits]
      · have hraised : Arith.add.apply n (k - 1) = none := if_neg hfits
        simp [resolve, hvalue, hraised, hfits, hsymbol, hone]

/-- There is a quotient by every divisor but zero, and its value, if it has one, is the value of the
dimension divided by `k`, rounding up. The quotient has a value whenever the dimension has one,
unless the dimension is symbolic and its value raised by `k - 1` is too large for a word. -/
theorem resolve_ceilDiv (x : Dim) (hk : 1 ≤ k) (s : Supply) :
    ∃ d s', Makes (ceilDiv? x k) s (some d) s' ∧ ∀ env : Valuation,
      (∀ m, d.resolve env = some m → (x.resolve env).map (· ⌈/⌉ k) = some m) ∧
      (d.resolve env = (x.resolve env).map (· ⌈/⌉ k) ↔
        ∀ n, x.resolve env = some n →
          x.isKnown = true ∨ k = 1 ∨ n + (k - 1) < wordLimit) := by
  obtain ⟨d, s', h⟩ := exists_ceilDiv? x hk s
  refine ⟨d, s', h, fun env => ?_⟩
  rw [resolve_of_ceilDiv? hk h]
  cases x.resolve env with
  | none => simp
  | some n =>
    by_cases hfits : x.isKnown = true ∨ k = 1 ∨ n + (k - 1) < wordLimit
    · simp [hfits]
    · simp [hfits]

/-- The greatest value of a symbol that can be divided by four: the raised one is the greatest
word. -/
theorem quartered_symbol : ∃ d s', Makes (ceilDiv? (free ⟨0, "n"⟩) 4) ⟨1⟩ (some d) s' ∧
    d.resolve { bindings := [(0, 0xfffffffffffffffc)] } = some 0x3fffffffffffffff := by
  obtain ⟨d, s', h, hvalue⟩ := resolve_ceilDiv (free ⟨0, "n"⟩) (show 1 ≤ 4 by decide) ⟨1⟩
  refine ⟨d, s', h, ((hvalue _).2.2 fun n hn => .inr (.inr ?_)).trans rfl⟩
  obtain rfl : 0xfffffffffffffffc = n := Option.some.inj hn
  decide

/-- The greatest word has a half, rounded up, if it is known. As the value of a symbol it has none,
because it cannot be raised. -/
theorem halved_greatest :
    let n : Dim := free ⟨0, "n"⟩
    let env : Valuation := { bindings := [(0, 0xffffffffffffffff)] }
    n.resolve env = some 0xffffffffffffffff ∧
      Makes (ceilDiv? (known 0xffffffffffffffff) 2) ⟨1⟩ (some (known 0x8000000000000000)) ⟨1⟩ ∧
      ∃ d s', Makes (ceilDiv? n 2) ⟨1⟩ (some d) s' ∧ d.resolve env = none ∧
        d.resolve env ≠ (n.resolve env).map (· ⌈/⌉ 2) := by
  refine ⟨rfl, rfl, _, _, rfl, rfl, ?_⟩
  decide

end Dim

end TensorCompiler
