import TensorCompiler.Proofs.Coordinates
import TensorCompiler.Proofs.Naming
/-!
# Dimensions as numbers

A dimension has a number under a valuation, and a known one has a number without it. Either way,
only sums and products of numbers have a number, and it is the sum or the product. So sizes and
strides, once they can be read, are those of the numbers that the shape is read as.

* `Dim.Reads`: a way to read dimensions as numbers; `Dim.reads_resolve`, `Dim.reads_known`.
* `Dim.Reads.prod_eq`: the size of a shape is the product of its numbers.
* `Dim.Reads.strideList_eq`: its strides are the row-major strides of its numbers.
-/

namespace TensorCompiler

open Dim

/-- The step computes a function of numbers. It needs no symbol on known operands, and beside the
neutral element. -/
structure Arith.Computes (op : Arith) (f : Nat → Nat → Nat) (neutral : Nat) : Prop where
  apply : ∀ a b c, op.apply a b = some c → c = f a b
  left : ∀ n, f neutral n = n
  right : ∀ n, f n neutral = n
  simplify : ∀ x y d, simplify? op x y = some d →
    (∃ a b c, x = .known a ∧ y = .known b ∧ op.apply a b = some c ∧ d = .known c) ∨
      y = .known neutral ∧ d = x ∨ x = .known neutral ∧ d = y

theorem Arith.computes_add : Arith.add.Computes (· + ·) 0 where
  apply a b c h := by simp_all [Arith.apply]
  left := Nat.zero_add
  right := Nat.add_zero
  simplify x y d h := by
    cases x <;> cases y <;> simp_all [simplify?, known?, eq_comm]

theorem Arith.computes_mul : Arith.mul.Computes (· * ·) 1 where
  apply a b c h := by simp_all [Arith.apply]
  left := Nat.one_mul
  right := Nat.mul_one
  simplify x y d h := by
    cases x <;> cases y <;> simp_all [simplify?, known?, eq_comm]

/-- A way to read dimensions as numbers: known ones have their value, and a sum or a product has a
value only if its operands have. -/
structure Dim.Reads (val : Dim → Option Nat) : Prop where
  known : ∀ n, val (.known n) = some n
  step : ∀ op f neutral, Arith.Computes op f neutral → ∀ x y d s s' n,
    Makes (Dim.combine op x y) s d s' → val d = some n →
      ∃ a b, val x = some a ∧ val y = some b ∧ n = f a b

namespace Dim

variable {val : Dim → Option Nat} {x y d : Dim} {n : Nat} {s s' : Supply}

/-- Results without a new symbol are read by the operands. -/
theorem step_of_simplify? {op : Arith} {f : Nat → Nat → Nat} {neutral : Nat}
    (hknown : ∀ n, val (.known n) = some n) (hop : op.Computes f neutral)
    (h : simplify? op x y = some d) (hd : val d = some n) :
    ∃ a b, val x = some a ∧ val y = some b ∧ n = f a b := by
  rcases hop.simplify x y d h with ⟨a, b, c, rfl, rfl, hc, rfl⟩ | ⟨rfl, rfl⟩ | ⟨rfl, rfl⟩
  · rw [hknown] at hd
    cases hd
    exact ⟨a, b, hknown a, hknown b, hop.apply a b _ hc⟩
  · exact ⟨n, neutral, hd, hknown neutral, (hop.right n).symm⟩
  · exact ⟨neutral, n, hknown neutral, hd, (hop.left n).symm⟩

/-- Dimensions can be read under a valuation. -/
theorem reads_resolve (env : Valuation) : Dim.Reads (Dim.resolve env) where
  known _ := rfl
  step op f neutral hop x y d s s' n h hd := by
    rcases combine_makes_iff.1 h with ⟨hz, -⟩ | ⟨-, rfl, -⟩
    · exact step_of_simplify? (fun _ => rfl) hop hz hd
    · simp only [Dim.resolve, Option.bind_eq_bind, Option.bind_eq_some_iff] at hd
      obtain ⟨a, ha, b, hb, hc⟩ := hd
      exact ⟨a, b, ha, hb, hop.apply a b n hc⟩

/-- Dimensions can be read without a valuation, as far as they are known. -/
theorem reads_known : Dim.Reads Dim.known? where
  known _ := rfl
  step op f neutral hop x y d s s' n h hd := by
    rcases combine_makes_iff.1 h with ⟨hz, -⟩ | ⟨-, rfl, -⟩
    · exact step_of_simplify? (fun _ => rfl) hop hz hd
    · cases hd

namespace Reads

theorem sum (h : Dim.Reads val) (hd : Makes (combine .add x y) s d s') (hn : val d = some n) :
    ∃ a b, val x = some a ∧ val y = some b ∧ n = a + b :=
  h.step _ _ _ Arith.computes_add _ _ _ _ _ _ hd hn

theorem product (h : Dim.Reads val) (hd : Makes (combine .mul x y) s d s') (hn : val d = some n) :
    ∃ a b, val x = some a ∧ val y = some b ∧ n = a * b :=
  h.step _ _ _ Arith.computes_mul _ _ _ _ _ _ hd hn

end Reads

/-! ## Shapes -/

/-- The dimensions are read as these numbers. -/
abbrev ReadAs (val : Dim → Option Nat) : List Dim → List Nat → Prop :=
  List.Forall₂ fun d n => val d = some n

variable {ds : List Dim} {ns ms : List Nat}

theorem ReadAs.unique (h : ReadAs val ds ns) (h' : ReadAs val ds ms) : ns = ms := by
  induction h generalizing ms with
  | nil =>
    cases h'
    rfl
  | cons hd _ ih =>
    cases h' with
    | cons hd' h' => rw [Option.some.inj (hd.symm.trans hd'), ih h']

theorem ReadAs.exists_number (h : ReadAs val ds ns) {i : Nat} (hd : ds[i]? = some d) :
    ∃ n, ns[i]? = some n ∧ val d = some n := by
  have hi := h.length_eq ▸ (List.getElem?_eq_some_iff.1 hd).1
  have hn := List.getElem?_eq_getElem hi
  exact ⟨_, hn, forall₂_getElem? h hd hn⟩

theorem ReadAs.exists_dim (h : ReadAs val ds ns) {i n : Nat} (hn : ns[i]? = some n) :
    ∃ d, ds[i]? = some d ∧ val d = some n := by
  have hi := h.length_eq ▸ (List.getElem?_eq_some_iff.1 hn).1
  have hd := List.getElem?_eq_getElem hi
  exact ⟨_, hd, forall₂_getElem? h hd hn⟩

theorem readAs_filterMap (h : ∀ d ∈ ds, ∃ n, val d = some n) : ReadAs val ds (ds.filterMap val) := by
  induction ds with
  | nil => exact .nil
  | cons d ds ih =>
    obtain ⟨⟨n, hn⟩, h⟩ := List.forall_mem_cons.1 h
    rw [List.filterMap_cons_some hn]
    exact .cons hn (ih h)

theorem readAs_known (h : ∀ n, val (.known n) = some n) : ReadAs val (ns.map .known) ns := by
  rw [ReadAs, List.forall₂_map_left_iff]
  exact List.forall₂_same.2 fun n _ => h n

/-- Under a total valuation, the numbers are those of the dimensions. -/
theorem readAs_map {value : Dim → Nat} (h : ∀ d ∈ ds, val d = some (value d)) :
    ReadAs val ds (ds.map value) := by
  rw [ReadAs, List.forall₂_map_right_iff]
  exact List.forall₂_same.2 h

/-- There is a stride for every dimension. -/
theorem length_stridesOf {shape : List Dim} (h : Makes (TensorType.stridesOf shape) s ds s') :
    ds.length = shape.length := by
  induction shape generalizing ds s s' with
  | nil =>
    obtain ⟨rfl, -⟩ := makes_pure_iff.1 h
    rfl
  | cons x shape ih =>
    cases shape with
    | nil =>
      obtain ⟨rfl, -⟩ := makes_pure_iff.1 h
      rfl
    | cons y shape =>
      simp only [TensorType.stridesOf, makes_bind_iff, makes_pure_iff] at h
      obtain ⟨inner, s₁, hinner, outer, s₂, houter, rfl, -⟩ := h
      rw [List.length_cons, ih hinner, List.length_cons (a := x)]

namespace Reads

/-- The size of a shape is the product of its numbers. -/
theorem prod_eq (hval : Dim.Reads val) (hds : ReadAs val ds ns) (h : Makes (Dim.product ds) s d s')
    (hd : val d = some n) : n = ns.prod := by
  suffices gen : ∀ acc s, Makes (ds.foldlM (combine .mul) acc) s d s' →
      ∃ a, val acc = some a ∧ n = a * ns.prod by
    obtain ⟨a, ha, rfl⟩ := gen _ _ h
    cases (hval.known 1).symm.trans ha
    exact Nat.one_mul _
  clear h
  induction hds with
  | nil =>
    intro acc s h
    obtain ⟨rfl, -⟩ := makes_pure_iff.1 h
    exact ⟨n, hd, (Nat.mul_one n).symm⟩
  | @cons x m ds ns hx _ ih =>
    intro acc s h
    rw [List.foldlM_cons, makes_bind_iff] at h
    obtain ⟨acc', s₁, hacc, h⟩ := h
    obtain ⟨c, hc, rfl⟩ := ih acc' s₁ h
    obtain ⟨a, b, ha, hb, rfl⟩ := hval.product hacc hc
    cases hx.symm.trans hb
    exact ⟨a, ha, by rw [List.prod_cons, Nat.mul_assoc]⟩

/-- A stride of a shape is the one of its numbers. -/
theorem stride_eq (hval : Dim.Reads val) {shape : List Dim} (hshape : ReadAs val shape ns)
    (h : Makes (TensorType.stridesOf shape) s ds s') {i : Nat} (hd : ds[i]? = some d)
    (hn : val d = some n) : (strideList ns)[i]? = some n := by
  induction hshape generalizing ds d n i s s' with
  | nil =>
    obtain ⟨rfl, -⟩ := makes_pure_iff.1 h
    cases hd
  | @cons x m shape ns hx hshape ih =>
    cases hshape with
    | nil =>
      obtain ⟨rfl, -⟩ := makes_pure_iff.1 h
      cases i with
      | zero =>
        obtain rfl : Dim.known 1 = d := Option.some.inj hd
        cases (hval.known 1).symm.trans hn
        rfl
      | succ i => cases hd
    | @cons y k shape ns hy hshape =>
      simp only [TensorType.stridesOf, makes_bind_iff, makes_pure_iff] at h
      obtain ⟨inner, s₁, hinner, outer, s₂, houter, rfl, -⟩ := h
      cases i with
      | succ i => exact ih hinner hd hn
      | zero =>
        -- The stride reads only if the next one on the inside does.
        obtain rfl : outer = d := Option.some.inj hd
        obtain ⟨a, b, ha, hb, rfl⟩ := hval.product houter hn
        obtain ⟨t, ts, rfl⟩ := List.exists_cons_of_length_eq_add_one (length_stridesOf hinner)
        have hhead : some ns.prod = some a := ih (i := 0) hinner rfl ha
        cases hhead
        cases hy.symm.trans hb
        rw [strideList, List.prod_cons, Nat.mul_comm]
        rfl

/-- The strides of a shape are the row-major strides of its numbers. -/
theorem strideList_eq (hval : Dim.Reads val) {shape : List Dim} (hshape : ReadAs val shape ns)
    (h : Makes (TensorType.stridesOf shape) s ds s') (hds : ReadAs val ds ms) :
    ms = strideList ns := by
  have hlen : (strideList ns).length = ms.length := by
    rw [length_strideList, ← hshape.length_eq, ← length_stridesOf h, hds.length_eq]
  refine List.ext_getElem hlen.symm fun i hi hi' => ?_
  have hd := List.getElem?_eq_getElem (hds.length_eq ▸ hi)
  have hn := forall₂_getElem? hds hd (List.getElem?_eq_getElem hi)
  exact ((List.getElem?_eq_some_iff.1 (hval.stride_eq hshape h hd hn)).2).symm

end Reads

end Dim

end TensorCompiler
