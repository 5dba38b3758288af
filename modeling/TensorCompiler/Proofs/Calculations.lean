import TensorCompiler.Proofs.Iteration
/-!
# Calculations with dimensions

A calculation combines words and free symbols, step by step. It arrives at a dimension in which
known parts have been computed, neutral operands have been dropped, and the other steps have become
symbols, failed ones among them. None of this changes what a valuation makes of it.

* `Calculation.result`: the dimension that a calculation arrives at.
* `Calculation.HasValue`: the value of a calculation, by arithmetic on integers whose results have
  to be words; `Calculation.Unbound`, `Calculation.Faulty`: why there may be none.
* `Dim.resolve_combine`: a step on dimensions is the step on their values.
* `Calculation.resolve_result`: under every valuation, the result has the value of the calculation.
* `Dim.overflowed_combine_iff`: what a step adds to the failures of its operands.
* `Calculation.overflowed_result`: the result has overflowed if a step on known operands failed.
-/

namespace TensorCompiler

open Dim

/-! ## Steps on words -/

namespace Arith

variable {op : Arith} {x y n : Nat}

/-- The result of a step on integers of any size. -/
def exact : Arith → Int → Int → Int
  | add, x, y => x + y
  | sub, x, y => x - y
  | mul, x, y => x * y
  | div, x, y => x / y
  | rem, x, y => x % y

/-- What can go wrong in a step on words. -/
inductive Fault (op : Arith) (x y : Nat) : Prop
  | overflow (h : wordLimit ≤ op.exact x y)
  | underflow (h : op.exact x y < 0)
  | zeroDivisor (hop : op = div ∨ op = rem) (hy : y = 0)

theorem fault_iff : op.Fault x y ↔
    (wordLimit ≤ op.exact x y ∨ op.exact x y < 0) ∨ (op = div ∨ op = rem) ∧ y = 0 := by
  constructor
  · rintro (h | h | ⟨hop, hy⟩)
    · exact .inl (.inl h)
    · exact .inl (.inr h)
    · exact .inr ⟨hop, hy⟩
  · rintro ((h | h) | ⟨hop, hy⟩)
    · exact .overflow h
    · exact .underflow h
    · exact .zeroDivisor hop hy

/-- A number is a word, or too large for one. -/
theorem fault_range_iff : (wordLimit ≤ (n : Int) ∨ (n : Int) < 0) ↔ ¬n < wordLimit := by omega

/-- A step on words has a result, the exact one, unless something goes wrong. -/
theorem apply_eq_some_iff (hx : x < wordLimit) :
    op.apply x y = some n ↔ ¬op.Fault x y ∧ op.exact x y = n := by
  rw [fault_iff]
  cases op with
  | add =>
    have hexact : exact add x y = ((x + y : Nat) : Int) := rfl
    rw [hexact, fault_range_iff, Int.natCast_inj]
    simp [apply]
  | sub =>
    have hexact : exact sub x y = (x : Int) - y := rfl
    simp only [hexact, apply, reduceCtorEq, or_self, false_and, or_false]
    split <;> simp <;> omega
  | mul =>
    have hexact : exact mul x y = ((x * y : Nat) : Int) := rfl
    rw [hexact, fault_range_iff, Int.natCast_inj]
    simp [apply]
  | div =>
    have hexact : exact div x y = ((x / y : Nat) : Int) := rfl
    have hfits : x / y < wordLimit := Nat.lt_of_le_of_lt (Nat.div_le_self x y) hx
    rw [hexact, fault_range_iff, Int.natCast_inj]
    simp [apply, hfits]
  | rem =>
    have hexact : exact rem x y = ((x % y : Nat) : Int) := rfl
    have hfits : x % y < wordLimit := Nat.lt_of_le_of_lt (Nat.mod_le x y) hx
    rw [hexact, fault_range_iff, Int.natCast_inj]
    simp [apply, hfits]

/-- A step on words has no result if something goes wrong. -/
theorem apply_eq_none_iff (hx : x < wordLimit) : op.apply x y = none ↔ op.Fault x y := by
  constructor
  · intro hnone
    by_contra hfault
    have hpos : 0 ≤ op.exact x y := Int.not_lt.1 fun h => hfault (.underflow h)
    obtain ⟨n, hn⟩ := Int.eq_ofNat_of_zero_le hpos
    rw [(apply_eq_some_iff hx).2 ⟨hfault, hn⟩] at hnone
    cases hnone
  · intro hfault
    cases happly : op.apply x y with
    | none => rfl
    | some n => exact absurd hfault ((apply_eq_some_iff hx).1 happly).1

end Arith

/-! ## Steps on dimensions -/

namespace Dim

variable {env : Valuation} {op : Arith} {x y d : Dim} {n : Nat} {s s' : Supply}

/-- A step without a new symbol computes a known value, or gives back the operand beside a known
one that makes no difference to any word. -/
theorem simplify?_neutral (h : simplify? op x y = some d) :
    (∃ a b n, x = known a ∧ y = known b ∧ op.apply a b = some n ∧ d = known n) ∨
    (∃ b, y = known b ∧ d = x ∧ x.known? = none ∧ ∀ a < wordLimit, op.apply a b = some a) ∨
    ∃ a, x = known a ∧ d = y ∧ y.known? = none ∧ ∀ b < wordLimit, op.apply a b = some b := by
  unfold simplify? at h
  cases hx : x.known? with
  | some a =>
    obtain rfl := known?_eq_some_iff.1 hx
    cases hy : y.known? with
    | some b =>
      obtain rfl := known?_eq_some_iff.1 hy
      obtain ⟨n, hn, rfl⟩ := Option.map_eq_some_iff.1 h
      exact .inl ⟨a, b, n, rfl, rfl, hn, rfl⟩
    | none =>
      rw [hy] at h
      refine .inr (.inr ⟨a, rfl, ?_⟩)
      cases op <;> simp [known?] at h
      all_goals
        obtain ⟨rfl, rfl⟩ := h
        exact ⟨rfl, rfl, fun b hb => by simp [Arith.apply, hb]⟩
  | none =>
    cases hy : y.known? with
    | some b =>
      obtain rfl := known?_eq_some_iff.1 hy
      rw [hx] at h
      refine .inr (.inl ⟨b, rfl, ?_⟩)
      cases op <;> simp [known?] at h
      all_goals
        obtain ⟨rfl, rfl⟩ := h
        exact ⟨rfl, rfl, fun a ha => by simp [Arith.apply, ha]⟩
    | none =>
      rw [hx, hy] at h
      cases h

/-- Under a valuation, a step on dimensions is the step on their values. -/
theorem resolve_combine (hx : ∀ n, x.resolve env = some n → n < wordLimit)
    (hy : ∀ n, y.resolve env = some n → n < wordLimit) (h : Makes (combine op x y) s d s') :
    d.resolve env = (x.resolve env).bind fun a => (y.resolve env).bind (op.apply a) := by
  rcases combine_makes_iff.1 h with ⟨hz, -⟩ | ⟨-, rfl, -⟩
  · rcases simplify?_neutral hz with ⟨a, b, n, rfl, rfl, hn, rfl⟩ | ⟨b, rfl, rfl, -, hb⟩ |
      ⟨a, rfl, rfl, -, ha⟩
    · exact hn.symm
    · cases hvalue : d.resolve env with
      | none => rfl
      | some a => exact (hb a (hx a hvalue)).symm
    · cases hvalue : d.resolve env with
      | none => rfl
      | some b => exact (ha b (hy b hvalue)).symm
  · rfl

/-- What has overflowed are the steps that failed on two known operands, and what has been made from
them: no step hides a failure of its operands. -/
theorem overflowed_combine_iff (h : Makes (combine op x y) s d s') : d.overflowed = true ↔
    (∃ a b, x = known a ∧ y = known b ∧ op.apply a b = none) ∨
      x.overflowed = true ∨ y.overflowed = true := by
  rcases combine_makes_iff.1 h with ⟨hz, -⟩ | ⟨hz, rfl, -⟩
  · rcases simplify?_neutral hz with ⟨a, b, n, rfl, rfl, hn, rfl⟩ | ⟨b, rfl, rfl, hnone, -⟩ |
      ⟨a, rfl, rfl, hnone, -⟩
    · simp [overflowed, hn]
    · have hsymbol : ∀ a, d ≠ known a := fun a ha => by simp [ha, known?] at hnone
      simp [overflowed, hsymbol]
    · have hsymbol : ∀ b, d ≠ known b := fun b hb => by simp [hb, known?] at hnone
      simp [overflowed, hsymbol]
  · have hknown : (x.isKnown && y.isKnown) = true ↔
        ∃ a b, x = known a ∧ y = known b ∧ op.apply a b = none := by
      constructor
      · intro hboth
        obtain ⟨hx, hy⟩ := Bool.and_eq_true_iff.1 hboth
        obtain ⟨a, ha⟩ := Option.isSome_iff_exists.1 hx
        obtain ⟨b, hb⟩ := Option.isSome_iff_exists.1 hy
        rw [simplify?, ha, hb] at hz
        exact ⟨a, b, known?_eq_some_iff.1 ha, known?_eq_some_iff.1 hb, Option.map_eq_none_iff.1 hz⟩
      · rintro ⟨a, b, rfl, rfl, -⟩
        rfl
    rw [overflowed, Bool.or_eq_true, Bool.or_eq_true, hknown, or_assoc]

end Dim

/-! ## Calculations -/

/-- A calculation with words and free symbols. Each step takes the number of its symbol, if it needs
one, from the supply at its time. A dimension that is used twice stands there twice. -/
inductive Calculation where
  | word (n : UInt64)
  | symbol (s : Symbol)
  | step (op : Arith) (x y : Calculation) (supply : Supply)

namespace Calculation

/-- The dimension that a calculation arrives at. -/
def result : Calculation → Dim
  | word n => .known n.toNat
  | symbol s => .free s
  | step op x y supply => (Id.run ((combine op x.result y.result).run supply)).1

/-- The calculation with those of its operands, and so on. -/
def parts : Calculation → List Calculation
  | word n => [word n]
  | symbol s => [symbol s]
  | step op x y supply => step op x y supply :: (x.parts ++ y.parts)

/-- The value of a calculation, with the values of its symbols in their places: the results of all
its steps are exact, and words. -/
inductive HasValue (env : Valuation) : Calculation → Nat → Prop
  | word (n : UInt64) : HasValue env (word n) n.toNat
  | symbol {s n} : env.value? s = some n → HasValue env (symbol s) n
  | step {op : Arith} {x y : Calculation} {supply : Supply} {a b n : Nat} : HasValue env x a →
      HasValue env y b → ¬op.Fault a b → op.exact a b = n → HasValue env (step op x y supply) n

/-- Some symbol of the calculation has no value. -/
def Unbound (env : Valuation) (c : Calculation) : Prop :=
  ∃ s, symbol s ∈ c.parts ∧ env.value? s = none

/-- Some step of the calculation is like this, for its operator and its operands. -/
def SomeStep (P : Arith → Calculation → Calculation → Prop) (c : Calculation) : Prop :=
  ∃ op x y supply, step op x y supply ∈ c.parts ∧ P op x y

/-- Something goes wrong in some step, on the values of its operands. -/
def Faulty (env : Valuation) : Calculation → Prop :=
  SomeStep fun op x y => ∃ a b, x.HasValue env a ∧ y.HasValue env b ∧ op.Fault a b

/-- Something goes wrong in some step whose operands are both known without a valuation. -/
def FaultyKnown : Calculation → Prop :=
  SomeStep fun op x y => ∃ a b, x.result = known a ∧ y.result = known b ∧ op.Fault a b

variable {env : Valuation} {op : Arith} {x y c : Calculation} {supply : Supply} {m n : Nat}
  {P : Arith → Calculation → Calculation → Prop}

theorem makes_result (op : Arith) (x y : Calculation) (supply : Supply) :
    ∃ s', Makes (combine op x.result y.result) supply (step op x y supply).result s' := ⟨_, rfl⟩

theorem mem_parts_step {p : Calculation} : p ∈ (step op x y supply).parts ↔
    p = step op x y supply ∨ p ∈ x.parts ∨ p ∈ y.parts := by
  rw [parts, List.mem_cons, List.mem_append]

theorem unbound_step_iff :
    (step op x y supply).Unbound env ↔ x.Unbound env ∨ y.Unbound env := by
  simp only [Unbound, mem_parts_step, reduceCtorEq, false_or, or_and_right, exists_or]

theorem someStep_step_iff :
    (step op x y supply).SomeStep P ↔ P op x y ∨ x.SomeStep P ∨ y.SomeStep P := by
  simp only [SomeStep, mem_parts_step, or_and_right, exists_or]
  refine or_congr_left ⟨?_, fun h => ⟨op, x, y, supply, rfl, h⟩⟩
  rintro ⟨_, _, _, _, hself, h⟩
  cases hself
  exact h

theorem faulty_step_iff : (step op x y supply).Faulty env ↔
    (∃ a b, x.HasValue env a ∧ y.HasValue env b ∧ op.Fault a b) ∨ x.Faulty env ∨ y.Faulty env :=
  someStep_step_iff

theorem faultyKnown_step_iff : (step op x y supply).FaultyKnown ↔
    (∃ a b, x.result = known a ∧ y.result = known b ∧ op.Fault a b) ∨
      x.FaultyKnown ∨ y.FaultyKnown :=
  someStep_step_iff

/-! ## Values -/

/-- Whatever a calculation resolves to is a word. -/
theorem lt_of_resolve (h : c.result.resolve env = some n) : n < wordLimit := by
  induction c generalizing n with
  | word k =>
    obtain rfl : k.toNat = n := Option.some.inj h
    exact k.toNat_lt
  | symbol s =>
    obtain ⟨k, -, rfl⟩ := Option.map_eq_some_iff.1 h
    exact k.toNat_lt
  | step op x y supply ihx ihy =>
    obtain ⟨s', hmakes⟩ := makes_result op x y supply
    rw [resolve_combine (fun _ => ihx) (fun _ => ihy) hmakes] at h
    obtain ⟨a, ha, h⟩ := Option.bind_eq_some_iff.1 h
    obtain ⟨b, -, h⟩ := Option.bind_eq_some_iff.1 h
    exact apply_lt (ihx ha) h

theorem resolve_step : (step op x y supply).result.resolve env =
    (x.result.resolve env).bind fun a => (y.result.resolve env).bind (op.apply a) := by
  obtain ⟨s', hmakes⟩ := makes_result op x y supply
  exact resolve_combine (fun _ => lt_of_resolve) (fun _ => lt_of_resolve) hmakes

theorem resolve_eq_some_iff : c.result.resolve env = some n ↔ c.HasValue env n := by
  induction c generalizing n with
  | word k =>
    constructor
    · intro h
      obtain rfl : k.toNat = n := Option.some.inj h
      exact .word k
    · intro h
      cases h
      rfl
  | symbol s =>
    constructor
    · exact .symbol
    · intro h
      cases h with
      | symbol h => exact h
  | step op x y supply ihx ihy =>
    simp only [resolve_step, Option.bind_eq_some_iff, ihx, ihy]
    constructor
    · rintro ⟨a, ha, b, hb, h⟩
      obtain ⟨hfault, hexact⟩ := (Arith.apply_eq_some_iff (lt_of_resolve (ihx.2 ha))).1 h
      exact .step ha hb hfault hexact
    · intro h
      cases h with
      | step ha hb hfault hexact =>
        have hfits := lt_of_resolve (ihx.2 ha)
        exact ⟨_, ha, _, hb, (Arith.apply_eq_some_iff hfits).2 ⟨hfault, hexact⟩⟩

/-- Nothing comes of a calculation exactly if a symbol has no value or a step fails. -/
theorem resolve_eq_none_iff :
    c.result.resolve env = none ↔ c.Unbound env ∨ c.Faulty env := by
  induction c with
  | word k => simp [result, Dim.resolve, Unbound, Faulty, SomeStep, parts]
  | symbol s => simp [result, Dim.resolve, Unbound, Faulty, SomeStep, parts]
  | step op x y supply ihx ihy =>
    rw [unbound_step_iff, faulty_step_iff, resolve_step]
    constructor
    · intro h
      cases hx : x.result.resolve env with
      | none => exact (ihx.1 hx).imp .inl fun hx => .inr (.inl hx)
      | some a =>
        cases hy : y.result.resolve env with
        | none => exact (ihy.1 hy).imp .inr fun hy => .inr (.inr hy)
        | some b =>
          rw [hx, hy] at h
          exact .inr (.inl ⟨a, b, resolve_eq_some_iff.1 hx, resolve_eq_some_iff.1 hy,
            (Arith.apply_eq_none_iff (lt_of_resolve hx)).1 h⟩)
    · have hxnone : x.Unbound env ∨ x.Faulty env → ((x.result.resolve env).bind fun a =>
          (y.result.resolve env).bind (op.apply a)) = none := fun hx => by rw [ihx.2 hx]; rfl
      have hynone : y.Unbound env ∨ y.Faulty env → ((x.result.resolve env).bind fun a =>
          (y.result.resolve env).bind (op.apply a)) = none := fun hy => by
        rw [ihy.2 hy]
        cases x.result.resolve env <;> rfl
      rintro ((hx | hy) | ⟨a, b, ha, hb, hfault⟩ | hx | hy)
      · exact hxnone (.inl hx)
      · exact hynone (.inl hy)
      · rw [resolve_eq_some_iff.2 ha, resolve_eq_some_iff.2 hb]
        exact (Arith.apply_eq_none_iff (lt_of_resolve (resolve_eq_some_iff.2 ha))).2 hfault
      · exact hxnone (.inr hx)
      · exact hynone (.inr hy)

/-- Under every valuation, the dimension that a calculation arrives at has the value of the
calculation, and it has none exactly if a symbol of the calculation has none or a step of it
overflows, underflows or divides by zero. -/
theorem resolve_result (c : Calculation) (env : Valuation) :
    (∀ n, c.result.resolve env = some n ↔ c.HasValue env n) ∧
    (c.result.resolve env = none ↔ c.Unbound env ∨ c.Faulty env) :=
  ⟨fun _ => resolve_eq_some_iff, resolve_eq_none_iff⟩

/-- The size `(n * 14 * 15 * 4 + 2) / 2` for the symbol `n` with the value 2. -/
example :
    let times (c : Calculation) (k : UInt64) (i : Nat) := step .mul c (word k) { next := i }
    let cells := times (times (times (symbol ⟨0, "n"⟩) 14 1) 15 2) 4 3
    let size := step .div (step .add cells (word 2) { next := 4 }) (word 2) { next := 5 }
    size.result.resolve { bindings := [(0, 2)] } = some 841 := rfl

/-! ## Failures -/

theorem overflowed_step : (step op x y supply).result.overflowed = true ↔
    (∃ a b, x.result = known a ∧ y.result = known b ∧ op.Fault a b) ∨
      x.result.overflowed = true ∨ y.result.overflowed = true := by
  obtain ⟨s', hmakes⟩ := makes_result op x y supply
  rw [overflowed_combine_iff hmakes]
  refine or_congr_left (exists_congr fun a => exists_congr fun b => and_congr_right fun hx =>
    and_congr_right fun _ => Arith.apply_eq_none_iff ?_)
  have hvalue : x.result.resolve {} = some a := congrArg (Dim.resolve {}) hx
  exact lt_of_resolve hvalue

/-- A failed step is found again in whatever is made from it, and nothing else is taken for one. -/
theorem overflowed_eq_true_iff : c.result.overflowed = true ↔ c.FaultyKnown := by
  induction c with
  | word k => simp [result, overflowed, FaultyKnown, SomeStep, parts]
  | symbol s => simp [result, overflowed, FaultyKnown, SomeStep, parts]
  | step op x y supply ihx ihy =>
    rw [overflowed_step, faultyKnown_step_iff, ihx, ihy]

/-- A step that failed on known operands fails under every valuation. -/
theorem Faulty.of_faultyKnown (h : c.FaultyKnown) : c.Faulty env := by
  obtain ⟨op, x, y, supply, hstep, a, b, hx, hy, hfault⟩ := h
  refine ⟨op, x, y, supply, hstep, a, b, ?_, ?_, hfault⟩
  · exact resolve_eq_some_iff.1 (congrArg (Dim.resolve env) hx)
  · exact resolve_eq_some_iff.1 (congrArg (Dim.resolve env) hy)

/-- The dimension that a calculation arrives at has overflowed exactly if a step with two known
operands failed, and it has no value then, under any valuation. -/
theorem overflowed_result (c : Calculation) :
    (c.result.overflowed = true ↔ c.FaultyKnown) ∧
    (c.result.overflowed = true → ∀ env, c.result.resolve env = none) :=
  ⟨overflowed_eq_true_iff, fun h _ =>
    resolve_eq_none_iff.2 (.inr (.of_faultyKnown (overflowed_eq_true_iff.1 h)))⟩

/-- The largest word doubled, as an operand of a product with a symbol from which nothing is taken:
the failure is two steps down, beside a symbol and a neutral operand. -/
theorem overflowed_result_nested :
    let doubled : Calculation := step .mul (word 0xffffffffffffffff) (word 2) { next := 1 }
    let scaled : Calculation := step .mul (symbol ⟨0, "n"⟩) doubled { next := 2 }
    let whole : Calculation := step .sub scaled (word 0) { next := 3 }
    whole.result.overflowed = true ∧ ∀ env, whole.result.resolve env = none :=
  ⟨rfl, (overflowed_result _).2 rfl⟩

end Calculation

end TensorCompiler
