import TensorCompiler.Proofs.Computability
import TensorCompiler.Proofs.LinearKernel
/-!
# Elements of an output

Evaluation and the loop of a kernel compute the elements of an output from the same elements of the
inputs. Both are compared with `Operator.sourceAt`, the position at which an operator takes its
element from an input.

* `Operator.Determines`: the elements of an output, in terms of those of the inputs.
* `Operator.determines_of_pointwise`, `Operator.determines_of_movement`: evaluation computes these
  elements.
* `Kernel.Walks`: the loop of a kernel, in terms of its operator.
* `Kernel.Walks.element?_eq`: the loop computes these elements as well.
-/

namespace TensorCompiler

open Dim

namespace Operator

variable {α : Type} [Scalar α] {op : Operator α}

/-- An operator on single elements. A data movement hands the only one on. -/
def compute? (op : Operator α) (values : List α) : Option α :=
  match op with
  | pointwise f => f.eval? values
  | _ => values.head?

/-- Every element of the output is what the operator makes of the elements it takes. -/
def Determines (op : Operator α) (inputs : List (TensorType × Array α)) (y : TensorType)
    (r : Array α) : Prop :=
  ∀ i < r.size, ∃ values,
    List.Forall₂ (fun x v => x.2[op.sourceAt known? x.1 y i]? = some v) inputs values ∧
      op.compute? values = r[i]?

/-! ## Evaluation -/

theorem compute?_movement (hop : ∀ f, op ≠ .pointwise f) (v : α) : op.compute? [v] = some v := by
  cases op with
  | pointwise f => exact absurd rfl (hop f)
  | _ => rfl

theorem determines_of_pointwise {f : Pointwise α} {inputs : List (TensorType × Array α)}
    {y : TensorType} {r : Array α} (h : (pointwise f).evaluate inputs y = .ok r)
    (hy : y.isConcrete = true) (hin : ∀ x ∈ inputs, x.1.Broadcasts y ∧ Sized x.1.shape) :
    (pointwise f).Determines inputs y r := by
  obtain ⟨-, hsize, helement⟩ := (evaluate_broadcast_iff hy hin).1 h
  intro i hi
  obtain ⟨values, v, hvalues, hv, hr⟩ := helement i (hsize ▸ hi)
  exact ⟨values, hvalues, hv.trans hr.symm⟩

section

variable {x y : TensorType} {xs ys : List Nat} {data r : Array α}

/-- An operator that moves data to a place reads it from one, so there is some. -/
theorem inputs_pos_of_movement (hop : ∀ f, op ≠ .pointwise f) (hfits : op.Fits [x] y)
    (hmoves : op.Moves x.order.axes xs ys) (hx : x.shape = xs.map known)
    (hy : y.shape = ys.map known) (h : op.evaluate [(x, data)] y = .ok r)
    (hpos : ∀ n ∈ ys, 0 < n) : ∀ n ∈ xs, 0 < n := by
  have hscales := (Computable.of_move hop hfits hx hy h).scales
    (by rw [TensorType.sizes_eq hy]; exact List.prod_pos_iff_forall_pos_nat.2 hpos) x
    (List.mem_singleton_self x)
  rw [TensorType.sizes_eq hx, TensorType.sizes_eq hy] at hscales
  intro n hn
  obtain ⟨d, hd⟩ := List.mem_iff_getElem?.1 hn
  obtain ⟨a, n', m, -, -, ha, hn', hm, -, -⟩ :=
    hmoves.exists_axis 0 (List.getElem?_eq_some_iff.1 hd).1
  obtain rfl := Option.some.inj (hd.symm.trans hn')
  exact (hmoves.sizes d a n m ha hd hm).input_pos (hscales d a n m ha hd hm)
    (hpos m (List.mem_of_getElem? hm))

theorem determines_of_movement (hop : ∀ f, op ≠ .pointwise f) (hfits : op.Fits [x] y)
    (hmoves : op.Moves x.order.axes xs ys) (hx : x.shape = xs.map known)
    (hy : y.shape = ys.map known) (hsized : xs.prod < wordLimit)
    (h : op.evaluate [(x, data)] y = .ok r) (hr : r.size = ys.prod) :
    op.Determines [(x, data)] y r := by
  intro i hi
  have hi' : i < ys.prod := hr ▸ hi
  have hposy := pos_of_lt_prod hi'
  have hposx := inputs_pos_of_movement hop hfits hmoves hx hy h hposy
  have hscales := (Computable.of_move hop hfits hx hy h).scales
    (by rw [TensorType.sizes_eq hy]; exact Nat.zero_lt_of_lt hi') x (List.mem_singleton_self x)
  rw [TensorType.sizes_eq hx, TensorType.sizes_eq hy] at hscales
  obtain ⟨j, v, hj, hv, hri⟩ := read_of_evaluate hop h hi
  rw [hmoves.readIndex?_eq hop hx hy hfits hposx hposy hsized hscales hi'] at hj
  obtain rfl := Option.some.inj hj
  have hsource : op.sourceAt known? x y i = op.sourceIndexOf xs ys i := by
    rw [sourceAt_movement hop, ← TensorType.sizes_eq hx, ← TensorType.sizes_eq hy]
    rfl
  exact ⟨[v], .cons (hsource ▸ hv) .nil, (compute?_movement hop v).trans hri.symm⟩

end

end Operator

/-! ## The loop of a kernel -/

namespace Kernel

variable {α : Type} {k : Kernel α} {op : Operator α} {rank : Nat} {y : TensorType}
  {xs : List Operand}

/-- The loop of a kernel over this many axes applies the function of the operator, and reads each
operand at the position that the operator takes. -/
structure Walks (k : Kernel α) (op : Operator α) (rank : Nat) (y : TensorType)
    (xs : List Operand) : Prop where
  kind : k.kind = op.kind
  function : ∀ f, op = .pointwise f → k.pointwise? = some f
  arity : xs.length = op.kind.arity
  reads : ∀ name x, (name, x) ∈ op.kind.inputNames.zip xs → ∀ i,
    k.readIndex? rank name i = some (op.sourceAt known? x.type y i)

theorem Walks.element?_of_values [Scalar α] (h : k.Walks op rank y xs)
    {read : String → Nat → Option α} {i : Nat} {values : List α}
    (hvalues : List.Forall₂ (fun (e : String × Operand) v =>
      read e.1 (op.sourceAt known? e.2.type y i) = some v) (op.kind.inputNames.zip xs) values) :
    k.element? rank read i = op.compute? values := by
  have hnames : (op.kind.inputNames.zip xs).map (·.1) = op.kind.inputNames :=
    List.map_fst_zip h.arity.ge
  have hread : (op.kind.inputNames.mapM fun x => do read x (← k.readIndex? rank x i)) =
      some values := by
    rw [option_mapM_iff, ← hnames, List.forall₂_map_left_iff]
    refine List.forall₂_iff_zip.2 ⟨hvalues.length_eq, fun {e v} hev => ?_⟩
    rw [h.reads e.1 e.2 (List.of_mem_zip hev).1]
    exact (List.forall₂_iff_zip.1 hvalues).2 hev
  unfold element?
  rw [h.kind, hread]
  cases op with
  | pointwise f =>
    have helementwise : (Operator.pointwise f).kind.isElementwise = true :=
      isElementwise_pointwise f
    simp [helementwise, h.function f rfl, Operator.compute?]
  | _ => rfl

/-- Where the reads of a kernel find the data of its operands, its loop computes the elements that
the operator determines. -/
theorem Walks.element?_eq [Scalar α] (h : k.Walks op rank y xs) {ds : List (Array α)}
    {r : Array α} (hlen : ds.length = xs.length)
    (hr : op.Determines ((xs.map (·.type)).zip ds) y r) {read : String → Nat → Option α}
    (hread : ∀ name x d, (name, x) ∈ op.kind.inputNames.zip xs → (x, d) ∈ xs.zip ds →
      ∀ (j : Nat) v, d[j]? = some v → read name j = some v) {i : Nat} (hi : i < r.size) :
    k.element? rank read i = r[i]? := by
  obtain ⟨values, hvalues, happly⟩ := hr i hi
  refine (h.element?_of_values (List.forall₂_iff_get.2 ⟨?_, fun j hj hj' => ?_⟩)).trans happly
  · have := hvalues.length_eq
    have harity : op.kind.inputNames.length = xs.length := h.arity.symm
    simp only [List.length_zip, List.length_map, hlen, Nat.min_self] at this
    rw [List.length_zip, harity, Nat.min_self, this]
  · have hjx : j < xs.length := (List.length_zip ▸ hj).trans_le (Nat.min_le_right _ _)
    have hjd : j < ds.length := hlen ▸ hjx
    have hname : ((op.kind.inputNames.zip xs)[j].1, xs[j]) ∈ op.kind.inputNames.zip xs := by
      have hmem := List.getElem_mem hj
      rwa [List.getElem_zip] at hmem ⊢
    have hdata : (xs[j], ds[j]) ∈ xs.zip ds := List.mem_of_getElem?
      (List.getElem?_zip_eq_some.2 ⟨List.getElem?_eq_getElem hjx, List.getElem?_eq_getElem hjd⟩)
    have hvalue := (List.forall₂_iff_get.1 hvalues).2 j (by simp [hjx, hjd]) hj'
    simp only [List.get_eq_getElem, List.getElem_zip, List.getElem_map] at hvalue ⊢
    simpa using hread _ _ _ hname hdata _ _ hvalue

end Kernel

/-- A kernel over linear memory. -/
theorem Linear.LoopFor.walks {α : Type} {layout : MemoryLayout} {op : Operator α} {y : Operand}
    {xs : List Operand} {k : Kernel α} (h : Linear.LoopFor known? layout op y xs k)
    (harity : xs.length = op.kind.arity) : k.Walks op y.type.rank y.type xs where
  kind := h.kind
  function := h.function
  arity := harity
  reads := h.reads

end TensorCompiler
