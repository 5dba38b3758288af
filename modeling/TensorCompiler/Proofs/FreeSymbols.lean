import TensorCompiler.Proofs.CeilingDivision
/-!
# The free symbols of a dimension

A model is instantiated by binding the free symbols of its dimensions. What has to be bound for one
dimension is listed by `Dim.freeSymbols`: every free symbol in it, once. No other binding makes a
difference, none of those listed can be left out, and once all of them are bound only the arithmetic
can fail.

Symbols are told apart by their numbers, so the list is complete only if no number is given twice.
That is an invariant of the dimensions that a client has at hand.

* `AtHand`: the dimensions that a client makes and calculates with.
* `AtHand.named`, `AtHand.words`: the symbols at hand have names in one table, and what is known is
  a word.
* `Dim.nodup_freeSymbols`, `Dim.mem_freeSymbols_iff`: what is listed.
* `Dim.resolve_congr`, `Dim.resolve_eq_none_of_unbound`, `Dim.faulty_of_resolve_eq_none`: what the
  value of a dimension depends on.
* `AtHand.freeSymbols_exact`: the list is what has to be bound.
-/

namespace TensorCompiler

open Dim

/-! ## Parts of a dimension -/

namespace Dim

variable {σ : Names} {env env' : Valuation} {op : Arith} {x y d p : Dim} {a b : Symbol}
  {found : List Symbol} {k n : Nat} {s s' : Supply}

/-- The dimension with its operands, and so on. -/
def parts : Dim → List Dim
  | known n => [known n]
  | free a => [free a]
  | derived k op x y => derived k op x y :: (x.parts ++ y.parts)

/-- Something goes wrong in some step inside the dimension, on the values of its operands. -/
def Faulty (env : Valuation) (d : Dim) : Prop :=
  ∃ k op x y, derived k op x y ∈ d.parts ∧
    ∃ m n, x.resolve env = some m ∧ y.resolve env = some n ∧ op.Fault m n

theorem mem_parts_derived : p ∈ (derived k op x y).parts ↔
    p = derived k op x y ∨ p ∈ x.parts ∨ p ∈ y.parts := by
  rw [parts, List.mem_cons, List.mem_append]

theorem mem_parts_self (d : Dim) : d ∈ d.parts := by
  cases d <;> exact List.mem_cons_self ..

theorem mem_parts_left (h : p ∈ x.parts) : p ∈ (derived k op x y).parts :=
  mem_parts_derived.2 (.inr (.inl h))

theorem mem_parts_right (h : p ∈ y.parts) : p ∈ (derived k op x y).parts :=
  mem_parts_derived.2 (.inr (.inr h))

theorem Faulty.left (h : x.Faulty env) : (derived k op x y).Faulty env := by
  obtain ⟨k', op', x', y', hstep, hfault⟩ := h
  exact ⟨k', op', x', y', mem_parts_left hstep, hfault⟩

theorem Faulty.right (h : y.Faulty env) : (derived k op x y).Faulty env := by
  obtain ⟨k', op', x', y', hstep, hfault⟩ := h
  exact ⟨k', op', x', y', mem_parts_right hstep, hfault⟩

theorem Named.part (hd : d.Named σ n) (hp : p ∈ d.parts) : p.Named σ n := by
  induction d with
  | known m => exact List.mem_singleton.1 hp ▸ hd
  | free a => exact List.mem_singleton.1 hp ▸ hd
  | derived k op x y ihx ihy =>
    rcases mem_parts_derived.1 hp with rfl | hp | hp
    · exact hd
    · exact ihx hd.2.2.1 hp
    · exact ihy hd.2.2.2 hp

/-- Free symbols with one number are one symbol. -/
theorem Named.eq_of_number (hd : d.Named σ n) (ha : free a ∈ d.parts) (hb : free b ∈ d.parts)
    (h : a.number = b.number) : a = b := by
  have haσ : σ a.number = free a := (hd.part ha).2
  have hbσ : σ b.number = free b := (hd.part hb).2
  rw [h, hbσ] at haσ
  exact (free.inj haσ).symm

/-! ## Words -/

theorem words_known (h : n < wordLimit) : ∀ p ∈ (known n).parts, p.IsWord :=
  List.forall_mem_singleton.2 (isWord_known h)

theorem words_combine (hx : ∀ p ∈ x.parts, p.IsWord) (hy : ∀ p ∈ y.parts, p.IsWord)
    (h : Makes (combine op x y) s d s') : ∀ p ∈ d.parts, p.IsWord := by
  have hword : d.IsWord := isWord_combine (hx x (mem_parts_self x)) (hy y (mem_parts_self y)) h
  rcases combine_makes_iff.1 h with ⟨hz, -⟩ | ⟨-, rfl, -⟩
  · rcases simplify?_cases hz with ⟨n, rfl⟩ | rfl | rfl
    · exact List.forall_mem_singleton.2 hword
    · exact hx
    · exact hy
  · intro p hp
    rcases mem_parts_derived.1 hp with rfl | hp | hp
    · exact hword
    · exact hx p hp
    · exact hy p hp

theorem words_ceilDiv? (hx : ∀ p ∈ x.parts, p.IsWord) (hk : 1 ≤ k) (hlt : k < wordLimit)
    (h : Makes (ceilDiv? x k) s (some d) s') : ∀ p ∈ d.parts, p.IsWord := by
  rcases (ceilDiv?_makes_iff hk).1 h with ⟨n, rfl, rfl, -⟩ | ⟨-, raised, s₁, hraised, hd⟩
  · have hn : n < wordLimit := hx (known n) (mem_parts_self _) n rfl
    have hle : n ⌈/⌉ k ≤ n := by
      rw [ceilDiv_le_iff_le_mul hk]
      exact Nat.le_mul_of_pos_left n hk
    exact words_known (Nat.lt_of_le_of_lt hle hn)
  · have hpred : k - 1 < wordLimit := Nat.lt_of_le_of_lt (Nat.sub_le k 1) hlt
    exact words_combine (words_combine hx (words_known hpred) hraised) (words_known hlt) hd

/-- Whatever a dimension resolves to is a word. -/
theorem lt_of_resolve (hd : ∀ p ∈ d.parts, p.IsWord) (h : d.resolve env = some n) :
    n < wordLimit := by
  induction d generalizing n with
  | known m => exact hd _ (mem_parts_self _) n h
  | free a =>
    obtain ⟨k, -, rfl⟩ := Option.map_eq_some_iff.1 h
    exact k.toNat_lt
  | derived k op x y ihx ihy =>
    obtain ⟨m, hm, h⟩ := Option.bind_eq_some_iff.1 h
    obtain ⟨n, -, h⟩ := Option.bind_eq_some_iff.1 h
    exact apply_lt (ihx (fun p hp => hd p (mem_parts_left hp)) hm) h

/-! ## The list -/

/-- A free symbol is added unless its number has been found. -/
theorem collectFree_free_cases (found : List Symbol) (a : Symbol) :
    (∃ b ∈ found, b.number = a.number) ∧ collectFree found (free a) = found ∨
    (∀ b ∈ found, b.number ≠ a.number) ∧ collectFree found (free a) = found ++ [a] := by
  unfold collectFree
  split
  · next h => exact .inl ⟨by simpa using h, rfl⟩
  · next h => exact .inr ⟨by simpa using h, rfl⟩

theorem subset_collectFree (found : List Symbol) (d : Dim) : found ⊆ collectFree found d := by
  induction d generalizing found with
  | known n => exact List.Subset.refl found
  | free a =>
    rcases collectFree_free_cases found a with ⟨-, hfound⟩ | ⟨-, hfound⟩
    · rw [hfound]
      exact List.Subset.refl found
    · rw [hfound]
      exact List.subset_append_left found [a]
  | derived k op x y ihx ihy => exact List.Subset.trans (ihx found) (ihy _)

theorem mem_of_mem_collectFree (h : a ∈ collectFree found d) : a ∈ found ∨ free a ∈ d.parts := by
  induction d generalizing found with
  | known n => exact .inl h
  | free b =>
    rcases collectFree_free_cases found b with ⟨-, hfound⟩ | ⟨-, hfound⟩
    · rw [hfound] at h
      exact .inl h
    · rw [hfound, List.mem_append, List.mem_singleton] at h
      exact h.imp_right fun hab => by rw [hab]; exact mem_parts_self _
  | derived k op x y ihx ihy =>
    rcases ihy h with h | h
    · exact (ihx h).imp_right mem_parts_left
    · exact .inr (mem_parts_right h)

/-- Every free symbol of the dimension is found, or another one with its number was there. -/
theorem exists_mem_collectFree (found : List Symbol) (h : free a ∈ d.parts) :
    ∃ b ∈ collectFree found d, b.number = a.number := by
  induction d generalizing found with
  | known n => cases List.mem_singleton.1 h
  | free b =>
    cases List.mem_singleton.1 h
    rcases collectFree_free_cases found a with ⟨ha, hfound⟩ | ⟨-, hfound⟩
    · rwa [hfound]
    · rw [hfound]
      exact ⟨a, List.mem_append_right found (List.mem_singleton_self a), rfl⟩
  | derived k op x y ihx ihy =>
    rcases mem_parts_derived.1 h with h | h | h
    · cases h
    · obtain ⟨b, hb, hnumber⟩ := ihx found h
      exact ⟨b, subset_collectFree _ y hb, hnumber⟩
    · exact ihy _ h

theorem nodup_collectFree (found : List Symbol) (h : (found.map Symbol.number).Nodup) (d : Dim) :
    ((collectFree found d).map Symbol.number).Nodup := by
  induction d generalizing found with
  | known n => exact h
  | free a =>
    rcases collectFree_free_cases found a with ⟨-, hfound⟩ | ⟨hfresh, hfound⟩
    · rwa [hfound]
    · rw [hfound, List.map_append]
      refine h.append (List.nodup_singleton _) ?_
      simpa using hfresh
  | derived k op x y ihx ihy => exact ihy _ (ihx found h)

theorem nodup_freeSymbols (d : Dim) : d.freeSymbols.Nodup :=
  (nodup_collectFree [] List.nodup_nil d).of_map

theorem mem_freeSymbols_iff (hd : d.Named σ n) : a ∈ d.freeSymbols ↔ free a ∈ d.parts := by
  have hlisted : ∀ b ∈ d.freeSymbols, free b ∈ d.parts := fun b hb =>
    (mem_of_mem_collectFree hb).resolve_left List.not_mem_nil
  constructor
  · exact hlisted a
  · intro ha
    obtain ⟨b, hb, hnumber⟩ := exists_mem_collectFree [] ha
    exact hd.eq_of_number (hlisted b hb) ha hnumber ▸ hb

/-! ## What the value depends on -/

theorem resolve_congr (h : ∀ a, free a ∈ d.parts → env.value? a = env'.value? a) :
    d.resolve env = d.resolve env' := by
  induction d with
  | known n => rfl
  | free a => exact h a (mem_parts_self _)
  | derived k op x y ihx ihy =>
    rw [resolve, resolve, ihx fun a ha => h a (mem_parts_left ha),
      ihy fun a ha => h a (mem_parts_right ha)]

theorem resolve_eq_none_of_unbound (ha : free a ∈ d.parts) (h : env.value? a = none) :
    d.resolve env = none := by
  induction d with
  | known n => cases List.mem_singleton.1 ha
  | free b =>
    cases List.mem_singleton.1 ha
    exact h
  | derived k op x y ihx ihy =>
    rcases mem_parts_derived.1 ha with ha | ha | ha
    · cases ha
    · rw [resolve, ihx ha]
      rfl
    · rw [resolve, ihy ha]
      cases x.resolve env <;> rfl

/-- With all free symbols bound, there is a value unless a step fails. -/
theorem faulty_of_resolve_eq_none (hwords : ∀ p ∈ d.parts, p.IsWord)
    (hbound : ∀ a, free a ∈ d.parts → env.value? a ≠ none) (h : d.resolve env = none) :
    d.Faulty env := by
  induction d with
  | known n => cases h
  | free a => exact absurd h (hbound a (mem_parts_self _))
  | derived k op x y ihx ihy =>
    have hxwords : ∀ p ∈ x.parts, p.IsWord := fun p hp => hwords p (mem_parts_left hp)
    have hywords : ∀ p ∈ y.parts, p.IsWord := fun p hp => hwords p (mem_parts_right hp)
    cases hx : x.resolve env with
    | none => exact (ihx hxwords (fun a ha => hbound a (mem_parts_left ha)) hx).left
    | some m =>
      cases hy : y.resolve env with
      | none => exact (ihy hywords (fun a ha => hbound a (mem_parts_right ha)) hy).right
      | some n =>
        have hnone : op.apply m n = none := by simpa [resolve, hx, hy] using h
        exact ⟨k, op, x, y, mem_parts_self _, m, n, hx, hy,
          (Arith.apply_eq_none_iff (lt_of_resolve hxwords hx)).1 hnone⟩

end Dim

/-! ## Dimensions at hand -/

/-- The dimensions that a client has made from words and fresh symbols, by arithmetic steps and by
division rounding up. -/
inductive AtHand : Supply → List Dim → Prop
  | nothing (s : Supply) : AtHand s []
  /-- Symbols may have been used up elsewhere. -/
  | later {s s' ds} : AtHand s ds → s.next ≤ s'.next → AtHand s' ds
  | word {s ds n} : AtHand s ds → n < wordLimit → AtHand s (known n :: ds)
  | symbol {s s' ds label d} : AtHand s ds → Makes (ofLabel label) s d s' → AtHand s' (d :: ds)
  | step {s s' ds op x y d} : AtHand s ds → x ∈ ds → y ∈ ds → Makes (combine op x y) s d s' →
      AtHand s' (d :: ds)
  | quotient {s s' ds x k d} : AtHand s ds → x ∈ ds → 1 ≤ k → k < wordLimit →
      Makes (ceilDiv? x k) s (some d) s' → AtHand s' (d :: ds)

namespace AtHand

variable {σ τ : Names} {x d : Dim} {ds : List Dim} {k : Nat} {s s' : Supply}

theorem named_cons (hds : ∀ e ∈ ds, e.Named σ s.next) (hgrows : Grows σ s τ s')
    (hd : d.Named τ s'.next) : ∀ e ∈ d :: ds, e.Named τ s'.next :=
  List.forall_mem_cons.2 ⟨hd, fun e he => hgrows.named (hds e he)⟩

/-- No number is given twice. -/
theorem named (h : AtHand s ds) : ∃ σ, ∀ d ∈ ds, d.Named σ s.next := by
  induction h with
  | nothing s => exact ⟨fun _ => known 0, fun d hd => by cases hd⟩
  | later _ hs ih =>
    obtain ⟨σ, h⟩ := ih
    exact ⟨σ, fun d hd => (Grows.of_le σ hs).named (h d hd)⟩
  | word _ _ ih =>
    obtain ⟨σ, h⟩ := ih
    exact ⟨σ, named_cons h (.refl σ _) (named_known σ _ _)⟩
  | symbol _ hd ih =>
    obtain ⟨σ, h⟩ := ih
    obtain ⟨τ, hgrows, hd⟩ := named_ofLabel (σ := σ) hd
    exact ⟨τ, named_cons h hgrows hd⟩
  | step _ hx hy hd ih =>
    obtain ⟨σ, h⟩ := ih
    obtain ⟨τ, hgrows, hd⟩ := named_combine (h _ hx) (h _ hy) hd
    exact ⟨τ, named_cons h hgrows hd⟩
  | quotient _ hx hk _ hd ih =>
    obtain ⟨σ, h⟩ := ih
    obtain ⟨τ, hgrows, hd⟩ := named_ceilDiv? (h _ hx) hk hd
    exact ⟨τ, named_cons h hgrows hd⟩

theorem words (h : AtHand s ds) : ∀ d ∈ ds, ∀ p ∈ d.parts, p.IsWord := by
  induction h with
  | nothing s => exact fun d hd => by cases hd
  | later _ _ ih => exact ih
  | word _ hn ih => exact List.forall_mem_cons.2 ⟨words_known hn, ih⟩
  | symbol _ hd ih =>
    cases hd
    exact List.forall_mem_cons.2 ⟨List.forall_mem_singleton.2 (isWord_symbolic rfl), ih⟩
  | step _ hx hy hd ih => exact List.forall_mem_cons.2 ⟨words_combine (ih _ hx) (ih _ hy) hd, ih⟩
  | quotient _ hx hk hlt hd ih =>
    exact List.forall_mem_cons.2 ⟨words_ceilDiv? (ih _ hx) hk hlt hd, ih⟩

/-- The free symbols of a dimension are listed once each. Valuations that agree on them give the
same result; if one of them is not bound, there is no value, and if all of them are, there is none
only if a step inside the dimension overflows, underflows or divides by zero. -/
theorem freeSymbols_exact (h : AtHand s ds) (hd : d ∈ ds) :
    (d.freeSymbols.Nodup ∧ ∀ a, a ∈ d.freeSymbols ↔ free a ∈ d.parts) ∧
    (∀ env env' : Valuation, (∀ a ∈ d.freeSymbols, env.value? a = env'.value? a) →
      d.resolve env = d.resolve env') ∧
    (∀ env : Valuation, ∀ a ∈ d.freeSymbols, env.value? a = none → d.resolve env = none) ∧
    ∀ env : Valuation, (∀ a ∈ d.freeSymbols, env.value? a ≠ none) → d.resolve env = none →
      d.Faulty env := by
  obtain ⟨σ, hnamed⟩ := h.named
  have hmem : ∀ a, a ∈ d.freeSymbols ↔ free a ∈ d.parts := fun a => mem_freeSymbols_iff (hnamed d hd)
  refine ⟨⟨nodup_freeSymbols d, hmem⟩, fun env env' hagree => ?_, fun env a ha => ?_,
    fun env hbound => ?_⟩
  · exact resolve_congr fun a ha => hagree a ((hmem a).2 ha)
  · exact resolve_eq_none_of_unbound ((hmem a).1 ha)
  · exact faulty_of_resolve_eq_none (h.words d hd) fun a ha => hbound a ((hmem a).2 ha)

/-- The product of a sum with one of its operands. The operands have one label, but are two
symbols. -/
def area : Dim :=
  derived 3 .mul (derived 2 .add (free ⟨0, "N"⟩) (free ⟨1, "N"⟩)) (free ⟨0, "N"⟩)

theorem atHand_area : ∃ ds, AtHand ⟨4⟩ (area :: ds) := by
  have first : Makes (ofLabel "N") ⟨0⟩ (free ⟨0, "N"⟩) ⟨1⟩ := rfl
  have second : Makes (ofLabel "N") ⟨1⟩ (free ⟨1, "N"⟩) ⟨2⟩ := rfl
  have symbols : AtHand ⟨2⟩ [free ⟨1, "N"⟩, free ⟨0, "N"⟩] :=
    .symbol (.symbol (.nothing {}) first) second
  have sum := symbols.step (.tail _ (.head _)) (.head _)
    (rfl : Makes (combine .add (free ⟨0, "N"⟩) (free ⟨1, "N"⟩)) ⟨2⟩ _ _)
  exact ⟨_, sum.step (.head _) (.tail _ (.tail _ (.head _))) rfl⟩

/-- Both symbols of the area are listed, the first one once; the area needs the second one, and
with both of them bound to `2 ^ 32`, the product overflows. -/
theorem freeSymbols_exact_area : (∃ ds, AtHand ⟨4⟩ (area :: ds)) ∧
    area.freeSymbols = [⟨0, "N"⟩, ⟨1, "N"⟩] ∧
    (∀ env : Valuation, env.value? ⟨1, "N"⟩ = none → area.resolve env = none) ∧
    area.Faulty { bindings := [(0, 0x100000000), (1, 0x100000000)] } := by
  obtain ⟨ds, h⟩ := atHand_area
  obtain ⟨-, -, hunbound, hfaulty⟩ := freeSymbols_exact h (List.mem_cons_self ..)
  have hlist : area.freeSymbols = [⟨0, "N"⟩, ⟨1, "N"⟩] := rfl
  refine ⟨⟨ds, h⟩, hlist, fun env => hunbound env _ (by simp [hlist]), hfaulty _ ?_ rfl⟩
  rw [hlist]
  decide

end AtHand

end TensorCompiler
