import Mathlib.Algebra.BigOperators.Group.List.Basic
import TensorCompiler.Proofs.Naming
/-!
# Known shapes

A shape whose dimensions are all known is a list of numbers. Its size is their product, which fits
a 64-bit word once the shape has passed the check.

* `concreteShape_ok_iff`, `concreteSize_ok_iff`: reading a known shape and its size.
* `Checked`, `checked_of_make`: what the check of a shape accepts, symbolic or not.
* `make_of_infer`: the output of an operator has passed the check.
-/

namespace TensorCompiler

open Dim

theorem foldl_mul_eq_prod (ns : List Nat) : ns.foldl (· * ·) 1 = ns.prod :=
  List.prod_eq_foldl.symm

theorem foldr_mul_eq_prod (ns : List Nat) : ns.foldr (· * ·) 1 = ns.prod :=
  List.prod_eq_foldr.symm

theorem knownDim_ok_iff {d : Dim} {n : Nat} : TensorType.knownDim d = .ok n ↔ d = known n := by
  cases d <;> simp [TensorType.knownDim, known?]

theorem concreteShape_ok_iff {t : TensorType} {ns : List Nat} :
    t.concreteShape = .ok ns ↔ t.shape = ns.map known := by
  unfold TensorType.concreteShape
  rw [mapM_ok_iff]
  generalize t.shape = ds
  constructor
  · intro h
    induction h with
    | nil => rfl
    | cons hd _ ih => rw [knownDim_ok_iff.1 hd, ih, List.map_cons]
  · rintro rfl
    induction ns with
    | nil => exact .nil
    | cons n ns ih => exact .cons (knownDim_ok_iff.2 rfl) ih

theorem concreteSize_ok_iff {t : TensorType} {n : Nat} :
    t.concreteSize = .ok n ↔ ∃ ns : List Nat, t.shape = ns.map known ∧ n = ns.prod := by
  unfold TensorType.concreteSize
  simp only [bind_ok_iff, pure_ok_iff, concreteShape_ok_iff, foldl_mul_eq_prod, eq_comm (b := n)]

theorem map_known_injective {ms ns : List Nat} (h : ms.map known = ns.map known) : ms = ns :=
  List.map_injective_iff.2 (fun _ _ e => by cases e; rfl) h

/-- The size of a shape as a number that fits a word, if all its dimensions are known. -/
def Sized (shape : List Dim) : Prop :=
  ∀ ns : List Nat, shape = ns.map known → ns.prod < wordLimit

theorem combine_known {op : Arith} {a b c : Nat} (h : op.apply a b = some c) {d : Dim}
    {s s' : Supply} (hd : Makes (combine op (known a) (known b)) s d s') : d = known c ∧ s = s' := by
  rcases combine_makes_iff.1 hd with ⟨e, rfl⟩ | ⟨e, -, -⟩
  · simp only [simplify?, known?, h, Option.map_some, Option.some.injEq] at e
    exact ⟨e.symm, rfl⟩
  · simp [simplify?, known?, h] at e

theorem overflowed_combine {op : Arith} {x y d : Dim} {s s' : Supply}
    (h : Makes (combine op x y) s d s') (hx : x.overflowed = true) : d.overflowed = true := by
  rcases combine_makes_iff.1 h with ⟨e, -⟩ | ⟨-, rfl, -⟩
  · cases x with
    | known _ => cases hx
    | free _ => cases hx
    | derived k op' a b =>
      cases y with
      | known n => cases op <;> simp_all [simplify?, known?]
      | free _ => simp [simplify?, known?] at e
      | derived _ _ _ _ => simp [simplify?, known?] at e
  · simp [overflowed, hx]

theorem overflowed_foldlM_mul {ds : List Dim} {acc d : Dim} {s s' : Supply}
    (h : Makes (ds.foldlM (combine .mul) acc) s d s') (hacc : acc.overflowed = true) :
    d.overflowed = true := by
  induction ds generalizing acc s with
  | nil =>
    obtain ⟨rfl, -⟩ := makes_pure_iff.1 h
    exact hacc
  | cons x ds ih =>
    rw [List.foldlM_cons, makes_bind_iff] at h
    obtain ⟨acc', s₁, hx, h⟩ := h
    exact ih h (overflowed_combine hx hacc)

/-- A product of known factors that has not overflowed is their product, and fits a word. -/
theorem foldlM_mul_known {ns : List Nat} {a : Nat} {d : Dim} {s s' : Supply} (ha : a < wordLimit)
    (h : Makes ((ns.map known).foldlM (combine .mul) (known a)) s d s')
    (hd : d.overflowed = false) : d = known (a * ns.prod) ∧ a * ns.prod < wordLimit := by
  induction ns generalizing a s with
  | nil =>
    obtain ⟨rfl, -⟩ := makes_pure_iff.1 h
    simpa using ha
  | cons n ns ih =>
    rw [List.map_cons, List.foldlM_cons, makes_bind_iff] at h
    obtain ⟨acc, s₁, hn, h⟩ := h
    by_cases hlt : a * n < wordLimit
    · obtain ⟨rfl, -⟩ := combine_known (c := a * n) (by simp [Arith.apply, hlt]) hn
      rw [List.prod_cons, ← Nat.mul_assoc]
      exact ih hlt h
    · have hover : acc.overflowed = true := by
        rcases combine_makes_iff.1 hn with ⟨e, -⟩ | ⟨-, rfl, -⟩
        · simp [simplify?, known?, Arith.apply, hlt] at e
        · rfl
      rw [overflowed_foldlM_mul h hover] at hd
      cases hd

/-- What the check of a shape accepts: no dimension has overflowed, and known dimensions in front of
the others have a product that fits a word. -/
structure Checked (shape : List Dim) : Prop where
  dims : ∀ d ∈ shape, d.overflowed = false
  leading : ∀ ns : List Nat, ns.map known <+: shape → ns.prod < wordLimit

theorem checked_of_make {shape : List Dim} {order : Order} {t : TensorType} {s s' : Supply}
    (h : Gives (TensorType.make shape order) s t s') : Checked t.shape := by
  obtain ⟨rfl, -, size, hsize, hf⟩ := make_gives_iff.1 h
  refine ⟨fun d hd => hf d (List.mem_append_left _ hd), fun ns hns => ?_⟩
  have hsize' : size.overflowed = false := hf size (by simp)
  obtain ⟨rest, hrest⟩ := hns
  rw [Dim.product, ← hrest, List.foldlM_append, makes_bind_iff] at hsize
  obtain ⟨part, s₁, hpart, hsize⟩ := hsize
  have hpart' : part.overflowed = false := by
    cases hover : part.overflowed with
    | false => rfl
    | true =>
      rw [overflowed_foldlM_mul hsize hover] at hsize'
      cases hsize'
  have := (foldlM_mul_known (by decide) hpart hpart').2
  rwa [Nat.one_mul] at this

theorem Checked.sized {shape : List Dim} (h : Checked shape) : Sized shape :=
  fun ns hns => h.leading ns (hns ▸ List.prefix_refl _)

/-- The output of an operator has passed the check. -/
theorem make_of_infer {α : Type} {op : Operator α} {types : List TensorType} {t : TensorType}
    {s s' : Supply} (h : Gives (op.infer types) s t s') :
    ∃ shape order s₁, Gives (TensorType.make shape order) s₁ t s' := by
  cases op with
  | pointwise f =>
    obtain ⟨-, _, _, -, -, h⟩ := infer_pointwise h
    exact ⟨_, _, _, h⟩
  | tile m =>
    obtain ⟨_, -, -, -, _, _, -, h⟩ := infer_tile h
    exact ⟨_, _, _, h⟩
  | slice start stop step =>
    obtain ⟨_, -, -, _, _, -, h⟩ := infer_slice h
    exact ⟨_, _, _, h⟩
  | reinterpret source target =>
    obtain ⟨_, -, -, -, h⟩ := infer_reinterpret h
    exact ⟨_, _, _, h⟩
  | resize a m b n =>
    obtain ⟨_, _, _, -, -, -, -, -, h⟩ := infer_resize h
    exact ⟨_, _, _, h⟩

theorem checked_infer {α : Type} {op : Operator α} {types : List TensorType} {t : TensorType}
    {s s' : Supply} (h : Gives (op.infer types) s t s') : Checked t.shape := by
  obtain ⟨_, _, _, h⟩ := make_of_infer h
  exact checked_of_make h

end TensorCompiler
