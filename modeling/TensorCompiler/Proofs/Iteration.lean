import TensorCompiler.Kernel.Iteration
import TensorCompiler.Proofs.Typing
/-!
# Loops over several operands

A loop runs over the dimensions of its output. If these cover the operands, no further axes are
added to the loop. All its numbers are sizes and strides of the operands.

* `unifiedDims_eq`: the axes of a loop whose output covers its operands.
* `unify_of_fits`: the loop of a pointwise operator.
* `TensorType.All`: a property of the sizes and strides of a type.
* `forall_unify`: such a property of all operands is one of the numbers of a loop.
* `Dim.IsWord`: a dimension that is a word, if it is known.
-/

namespace TensorCompiler

open Dim

/-! ## The axes of a loop -/

namespace IterationOrder

variable {output : TensorType} {inputs : List TensorType}

theorem mem_byRank {x : TensorType} : x ∈ TensorType.byRank inputs ↔ x ∈ inputs := by
  rw [TensorType.byRank, List.mem_mergeSort]

theorem unifiedDims_eq
    (h : ∀ x ∈ inputs, ∀ e ∈ x.dims, (output.dims.lookup e.1).isSome = true) :
    unifiedDims output inputs = output.dims := by
  have hall : ∀ e ∈ (TensorType.byRank inputs).flatMap TensorType.dims,
      (output.dims.lookup e.1).isSome = true := by
    intro e he
    obtain ⟨x, hx, he⟩ := List.mem_flatMap.1 he
    exact h x (mem_byRank.1 hx) e he
  unfold unifiedDims
  generalize (TensorType.byRank inputs).flatMap TensorType.dims = entries at hall
  induction entries with
  | nil => rfl
  | cons e entries ih =>
    obtain ⟨he, hall⟩ := List.forall_mem_cons.1 hall
    rw [List.foldl_cons, if_pos he]
    exact ih hall

/-- Every dimension of a loop is one of an operand. -/
theorem mem_unifiedDims {e : Axis × Dim} (h : e ∈ unifiedDims output inputs) :
    ∃ x ∈ output :: inputs, e ∈ x.dims := by
  have hall : ∀ e ∈ (TensorType.byRank inputs).flatMap TensorType.dims,
      ∃ x ∈ output :: inputs, e ∈ x.dims := by
    intro e he
    obtain ⟨x, hx, he⟩ := List.mem_flatMap.1 he
    exact ⟨x, List.mem_cons_of_mem _ (mem_byRank.1 hx), he⟩
  have hstart : ∀ e ∈ output.dims, ∃ x ∈ output :: inputs, e ∈ x.dims := fun e he =>
    ⟨output, List.mem_cons_self .., he⟩
  unfold unifiedDims at h
  generalize (TensorType.byRank inputs).flatMap TensorType.dims = entries at h hall
  generalize output.dims = dims at h hstart
  induction entries generalizing dims with
  | nil => exact hstart e h
  | cons e' entries ih =>
    obtain ⟨he', hall⟩ := List.forall_mem_cons.1 hall
    rw [List.foldl_cons] at h
    refine ih hall _ h ?_
    split
    · exact hstart
    · exact List.forall_mem_append.2 ⟨hstart, List.forall_mem_singleton.2 he'⟩

end IterationOrder

theorem mem_shape_of_dims {t : TensorType} {e : Axis × Dim} (h : e ∈ t.dims) : e.2 ∈ t.shape :=
  (List.of_mem_zip (show (e.1, e.2) ∈ _ from h)).2

/-! ## The numbers of a loop -/

/-- The elements of a list are each computed, from some supply. -/
theorem forall₂_of_makes_mapM {β γ : Type} {f : β → FreshM γ} {xs : List β} {ys : List γ}
    {s s' : Supply} (h : Makes (xs.mapM f) s ys s') :
    List.Forall₂ (fun x y => ∃ r r', Makes (f x) r y r') xs ys := by
  induction xs generalizing ys s with
  | nil =>
    obtain ⟨rfl, -⟩ := makes_pure_iff.1 h
    exact .nil
  | cons x xs ih =>
    obtain ⟨y, s₁, ys', hy, hys, rfl⟩ := makes_mapM_cons_iff.1 h
    exact .cons ⟨s, s₁, hy⟩ (ih hys)

theorem forall_of_makes_mapM {β γ : Type} {P : γ → Prop} {f : β → FreshM γ} {xs : List β}
    {ys : List γ} {s s' : Supply} (hf : ∀ x ∈ xs, ∀ s y s', Makes (f x) s y s' → P y)
    (h : Makes (xs.mapM f) s ys s') : ∀ y ∈ ys, P y := by
  intro y hy
  obtain ⟨x, hx, r, r', hmakes⟩ := exists_of_forall₂_right (forall₂_of_makes_mapM h) hy
  exact hf x hx r y r' hmakes

/-- A loop whose output covers its operands runs over the axes of the output, and every operand has
a stride along each of them. -/
theorem unify_of_fits {α : Type} {f : Pointwise α} {inputs : List TensorType} {output : TensorType}
    {order : IterationOrder} {s s' : Supply} (hfits : (Operator.pointwise f).Fits inputs output)
    (h : Makes (IterationOrder.unify output inputs) s order s') :
    order.rank = output.rank ∧ order.shape = output.shape ∧
      List.Forall₂ (fun x ds => ∃ r r',
        Makes (output.dims.mapM (IterationOrder.strideAlong x)) r ds r')
        (output :: inputs) order.strides := by
  obtain ⟨strides, s₁, hstrides, h⟩ := makes_bind_iff.1 h
  obtain ⟨rfl, -⟩ := makes_pure_iff.1 h
  have hcovered := IterationOrder.unifiedDims_eq fun x hx e he => by
    obtain ⟨d, hd, -⟩ := hfits.2 x hx e he
    exact Option.isSome_iff_ne_none.2 fun hnone => by
      simpa using List.lookup_eq_none_iff.1 hnone _ hd
  have hshape : output.dims.map (·.2) = output.shape := by
    rw [TensorType.dims, ← List.unzip_snd, List.unzip_zip_right (Nat.le_of_eq output.rank_eq)]
  refine ⟨?_, ?_, ?_⟩
  · show (List.map _ (IterationOrder.unifiedDims output inputs)).length = _
    rw [List.length_map, hcovered, TensorType.rank, ← hshape, List.length_map]
  · show List.map _ (IterationOrder.unifiedDims output inputs) = _
    rw [hcovered]
    exact hshape
  · rw [hcovered] at hstrides
    exact forall₂_of_makes_mapM hstrides

/-- The dimensions, the strides and the size of a type are like this, whenever they are computed. -/
structure TensorType.All (P : Dim → Prop) (t : TensorType) : Prop where
  shape : ∀ d ∈ t.shape, P d
  strides : ∀ s ds s', Makes t.strides s ds s' → ∀ d ∈ ds, P d
  size : ∀ s d s', Makes t.size s d s' → P d

section

variable {P : Dim → Prop} {s s' : Supply}

theorem TensorType.All.strideAlong {t : TensorType} {e : Axis × Dim} {d : Dim} (ht : t.All P)
    (hzero : P (known 0)) (h : Makes (IterationOrder.strideAlong t e) s d s') : P d := by
  unfold IterationOrder.strideAlong at h
  split at h
  · split at h
    · obtain ⟨rfl, -⟩ := makes_pure_iff.1 h
      exact hzero
    · obtain ⟨stride, s₁, hstride, h⟩ := makes_bind_iff.1 h
      obtain ⟨rfl, -⟩ := makes_pure_iff.1 h
      unfold TensorType.strideOf? at hstride
      split at hstride
      · obtain ⟨ds, s₂, hds, hi⟩ := makes_bind_iff.1 hstride
        obtain ⟨rfl, -⟩ := makes_pure_iff.1 hi
        next i _ _ =>
        cases hget : ds[i]? with
        | none => exact hzero
        | some d => exact ht.strides _ _ _ hds d (List.mem_of_getElem? hget)
      · obtain ⟨rfl, -⟩ := makes_pure_iff.1 hstride
        exact hzero
  · obtain ⟨rfl, -⟩ := makes_pure_iff.1 h
    exact hzero

/-- The extents and strides of a loop are like those of its operands. -/
theorem forall_unify {output : TensorType} {inputs : List TensorType} {order : IterationOrder}
    (hall : ∀ t ∈ output :: inputs, t.All P) (hzero : P (known 0))
    (h : Makes (IterationOrder.unify output inputs) s order s') :
    (∀ d ∈ order.shape, P d) ∧ ∀ strides ∈ order.strides, ∀ d ∈ strides, P d := by
  obtain ⟨strides, s₁, hstrides, h⟩ := makes_bind_iff.1 h
  obtain ⟨rfl, -⟩ := makes_pure_iff.1 h
  constructor
  · refine List.forall_mem_map.2 fun e he => ?_
    obtain ⟨t, ht, he⟩ := IterationOrder.mem_unifiedDims he
    exact (hall t ht).shape e.2 (mem_shape_of_dims he)
  · exact forall_of_makes_mapM (fun t ht s ds s' hds => forall_of_makes_mapM
      (fun e _ s d s' hd => (hall t ht).strideAlong hzero hd) hds) hstrides

end

/-! ## Words -/

/-- The dimension is symbolic or a word. -/
def Dim.IsWord (d : Dim) : Prop := ∀ n, d.known? = some n → n < wordLimit

section

variable {x y d : Dim} {s s' : Supply}

theorem isWord_known {n : Nat} (h : n < wordLimit) : (known n).IsWord := by
  rintro _ ⟨⟩
  exact h

theorem isWord_symbolic (h : d.known? = none) : d.IsWord := by
  intro n hn
  rw [h] at hn
  cases hn

theorem apply_lt {op : Arith} {a b c : Nat} (ha : a < wordLimit) (h : op.apply a b = some c) :
    c < wordLimit := by
  cases op with
  | add =>
    obtain ⟨hlt, hc⟩ := Option.ite_none_right_eq_some.1 h
    exact Option.some.inj hc ▸ hlt
  | sub =>
    obtain ⟨-, hc⟩ := Option.ite_none_right_eq_some.1 h
    exact Option.some.inj hc ▸ Nat.lt_of_le_of_lt (Nat.sub_le a b) ha
  | mul =>
    obtain ⟨hlt, hc⟩ := Option.ite_none_right_eq_some.1 h
    exact Option.some.inj hc ▸ hlt
  | div =>
    obtain ⟨-, hc⟩ := Option.ite_none_left_eq_some.1 h
    exact Option.some.inj hc ▸ Nat.lt_of_le_of_lt (Nat.div_le_self a b) ha
  | rem =>
    obtain ⟨-, hc⟩ := Option.ite_none_left_eq_some.1 h
    exact Option.some.inj hc ▸ Nat.lt_of_le_of_lt (Nat.mod_le a b) ha

theorem isWord_combine {op : Arith} (hx : x.IsWord) (hy : y.IsWord)
    (h : Makes (combine op x y) s d s') : d.IsWord := by
  rcases combine_makes_iff.1 h with ⟨hz, -⟩ | ⟨-, rfl, -⟩
  · rcases simplify?_computes hz with ⟨a, b, n, rfl, rfl, hn, rfl⟩ | rfl | rfl
    · exact isWord_known (apply_lt (hx a rfl) hn)
    · exact hx
    · exact hy
  · exact isWord_symbolic rfl

theorem isWord_product {dims : List Dim} (hdims : ∀ d ∈ dims, d.IsWord)
    (h : Makes (Dim.product dims) s d s') : d.IsWord := by
  suffices gen : ∀ acc s, acc.IsWord → Makes (dims.foldlM (combine .mul) acc) s d s' → d.IsWord from
    gen _ s (isWord_known (by decide)) h
  clear h
  induction dims with
  | nil =>
    intro acc s hacc h
    obtain ⟨rfl, -⟩ := makes_pure_iff.1 h
    exact hacc
  | cons x dims ih =>
    intro acc s hacc h
    obtain ⟨hx, hdims⟩ := List.forall_mem_cons.1 hdims
    rw [List.foldlM_cons, makes_bind_iff] at h
    obtain ⟨acc', s₁, hacc', h⟩ := h
    exact ih hdims acc' s₁ (isWord_combine hacc hx hacc') h

theorem isWord_stridesOf {dims ds : List Dim} (hdims : ∀ d ∈ dims, d.IsWord)
    (h : Makes (TensorType.stridesOf dims) s ds s') : ∀ d ∈ ds, d.IsWord := by
  have hone : (known 1).IsWord := isWord_known (by decide)
  induction dims generalizing ds s s' with
  | nil =>
    obtain ⟨rfl, -⟩ := makes_pure_iff.1 h
    simp
  | cons x dims ih =>
    cases dims with
    | nil =>
      obtain ⟨rfl, -⟩ := makes_pure_iff.1 h
      exact List.forall_mem_singleton.2 hone
    | cons y dims =>
      have hdims := (List.forall_mem_cons.1 hdims).2
      simp only [TensorType.stridesOf, makes_bind_iff, makes_pure_iff] at h
      obtain ⟨inner, s₁, hinner, outer, s₂, houter, rfl, rfl⟩ := h
      have hin := ih hdims hinner
      have hhead : (inner.headD (known 1)).IsWord := by
        cases inner with
        | nil => exact hone
        | cons d inner => exact hin d (List.mem_cons_self ..)
      exact List.forall_mem_cons.2
        ⟨isWord_combine hhead (hdims y (List.mem_cons_self ..)) houter, hin⟩

/-- A shape of words has strides and a size of words. -/
theorem allWords {t : TensorType} (h : ∀ d ∈ t.shape, d.IsWord) : t.All IsWord :=
  ⟨h, fun _ _ _ hds => isWord_stridesOf h hds, fun _ _ _ hd => isWord_product h hd⟩

end

end TensorCompiler
