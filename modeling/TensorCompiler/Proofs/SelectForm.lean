import TensorCompiler.Pass.SelectArithmetic
import TensorCompiler.Proofs.Broadcasting
import TensorCompiler.Proofs.ExactScalars
/-!
# The arithmetic form of a selection

With exact arithmetic, `c * a + (1 - c) * b` is the selection between `a` and `b` at every element
where `c` is a truth value. The form broadcasts its operands in pairs, in another order than the
selection does, and still reads the same elements.

* `infer_pointwise_unique`: inference does not depend on the supply of symbols.
* `isTruth_of_comparison`: a comparison yields truth values.
* `evaluate_selectForm`: the form has the value of the selection.
-/

namespace TensorCompiler

section

variable {α : Type} {s s' : Supply}

theorem TensorType.ext_of {x y : TensorType} (hshape : x.shape = y.shape)
    (horder : x.order = y.order) : x = y := by
  cases x
  cases y
  simp_all

theorem infer_pointwise_unique {f : Pointwise α} {types : List TensorType} {t u : TensorType}
    {r r' : Supply} (ht : Gives ((Operator.pointwise f).infer types) s t s')
    (hu : Gives ((Operator.pointwise f).infer types) r u r') : t = u := by
  obtain ⟨-, dims, order, hdims, horder, ht⟩ := infer_pointwise ht
  obtain ⟨-, dims', order', hdims', horder', hu⟩ := infer_pointwise hu
  obtain rfl := Except.ok.inj (hdims.symm.trans hdims')
  obtain ⟨hshape, ho, -⟩ := make_gives_iff.1 ht
  obtain ⟨hshape', ho', -⟩ := make_gives_iff.1 hu
  refine TensorType.ext_of (hshape.trans hshape'.symm) ?_
  rw [ho, ho', Operator.order_ext (horder.trans horder'.symm)]

/-- The dimensions of distinct axes are gathered as they are. -/
theorem foldlM_broadcastDim {clash : Axis → GraphError} {dims entries : List (Axis × Dim)}
    (h : ((dims ++ entries).map (·.1)).Nodup) :
    entries.foldlM (TensorType.broadcastDim clash) dims = .ok (dims ++ entries) := by
  induction entries generalizing dims with
  | nil =>
    rw [List.append_nil]
    rfl
  | cons e entries ih =>
    have hnone : dims.lookup e.1 = none := by
      rw [List.lookup_eq_none_iff]
      intro p hp
      rw [List.map_append, List.map_cons, List.nodup_append] at h
      exact bne_iff_ne.2 (h.2.2 _ (List.mem_map_of_mem hp) _ (List.mem_cons_self ..)).symm
    have hstep : TensorType.broadcastDim clash dims e = .ok (dims ++ [e]) := by
      simp [TensorType.broadcastDim, hnone]
    have happend : dims ++ [e] ++ entries = dims ++ e :: entries := List.append_assoc ..
    rw [← happend] at h ⊢
    rw [List.foldlM_cons, hstep]
    exact ih h

/-- A pointwise operator with one input keeps its type. -/
theorem infer_pointwise_single {f : Pointwise α} {x t : TensorType}
    (h : Gives ((Operator.pointwise f).infer [x]) s t s') : t = x := by
  obtain ⟨-, dims, order, hdims, horder, h⟩ := infer_pointwise h
  obtain ⟨hshape, ho, -⟩ := make_gives_iff.1 h
  have hlen : x.order.axes.length = x.shape.length := x.rank_eq.symm
  have hfst : x.dims.map (·.1) = x.order.axes := List.map_fst_zip (Nat.le_of_eq hlen)
  have hsnd : x.dims.map (·.2) = x.shape := List.map_snd_zip (Nat.le_of_eq hlen.symm)
  have hall : TensorType.broadcastDims
      (fun a => .mismatch f.kind (.sizesDisagree a) [x]) [x] = .ok x.dims := by
    have hrank : TensorType.byRank [x] = [x] := List.mergeSort_singleton x
    unfold TensorType.broadcastDims
    rw [hrank, List.flatMap_singleton, foldlM_broadcastDim]
    · rfl
    · rw [List.nil_append, hfst]
      exact x.order.nodup
  obtain rfl := Except.ok.inj (hall.symm.trans hdims)
  refine TensorType.ext_of (hshape.trans hsnd) ?_
  rw [ho, Operator.order_ext (horder.trans hfst)]

end

/-! ## Exact evaluation -/

section

variable {x y : TensorType × Array ℚ} {output : TensorType}

/-- Whatever a comparison yields is a truth value. -/
theorem isTruth_of_comparison {op : Operator ℚ} {inputs : List (TensorType × Array ℚ)}
    {r : Array ℚ} (hop : op.isComparison = true) (h : op.evaluate inputs output = .ok r) :
    ∀ c ∈ r, IsTruth c := by
  have compared : ∀ {f : Pointwise ℚ}, (∀ xs c, f.eval? xs = some c → IsTruth c) →
      (Operator.pointwise f).evaluate inputs output = .ok r → ∀ c ∈ r, IsTruth c := by
    intro f hf h c hc
    obtain ⟨shape, columns, -, -, hr⟩ := evaluate_pointwise_ok_iff.1 h
    obtain ⟨hsize, hr⟩ := combine_ok_iff.1 hr
    obtain ⟨i, hi, rfl⟩ := Array.mem_iff_getElem.1 hc
    obtain ⟨xs, z, -, hz, hri⟩ := hr i (hsize ▸ hi)
    rw [Array.getElem?_eq_getElem hi, Option.some.injEq] at hri
    exact hri ▸ hf xs z hz
  cases op with
  | pointwise f =>
    cases f with
    | greater =>
      refine compared (fun xs c hc => ?_) h
      simp only [Pointwise.eval?, bind, pure, Option.bind_eq_some_iff, Option.some.injEq] at hc
      obtain ⟨u, -, v, -, rfl⟩ := hc
      exact isTruth_ofBool _
    | greaterEqual =>
      refine compared (fun xs c hc => ?_) h
      simp only [Pointwise.eval?, bind, pure, Option.bind_eq_some_iff, Option.some.injEq] at hc
      obtain ⟨u, -, v, -, rfl⟩ := hc
      exact isTruth_ofBool _
    | add => cases hop
    | mul => cases hop
    | affine => cases hop
    | select => cases hop
  | tile => cases hop
  | slice => cases hop
  | reinterpret => cases hop
  | resize => cases hop

/-- An input that can be read for every element of an output. -/
structure ReadAt (x : TensorType × Array ℚ) (output : TensorType) : Prop where
  broadcasts : x.1.Broadcasts output
  sized : Sized x.1.shape
  addressable : Addressable x

theorem exists_evaluate_binary {f : Pointwise ℚ} {op : ℚ → ℚ → ℚ}
    (hf : ∀ u v, f.eval? [u, v] = some (op u v)) (hout : output.isConcrete = true)
    (hx : ReadAt x output) (hy : ReadAt y output) :
    ∃ r, (Operator.pointwise f).evaluate [x, y] output = .ok r ∧ r.size = output.sizes.prod ∧
      ∀ i < output.sizes.prod, ∀ u v, elementAt? x output i = some u →
        elementAt? y output i = some v → r[i]? = some (op u v) := by
  have hin : ∀ z ∈ [x, y], z.1.Broadcasts output ∧ Sized z.1.shape ∧ Addressable z := by
    simp only [List.forall_mem_cons, List.not_mem_nil, false_imp_iff, implies_true, and_true]
    exact ⟨⟨hx.1, hx.2, hx.3⟩, hy.1, hy.2, hy.3⟩
  have hvalue : ∀ xs : List ℚ, xs.length = [x, y].length → ∃ z, f.eval? xs = some z := by
    intro xs hlen
    obtain ⟨u, v, rfl⟩ := List.length_eq_two.1 hlen
    exact ⟨_, hf u v⟩
  obtain ⟨r, hr⟩ := exists_evaluate_broadcast hout hin hvalue
  obtain ⟨-, hsize, hread⟩ :=
    (evaluate_broadcast_iff hout fun z hz => ⟨(hin z hz).1, (hin z hz).2.1⟩).1 hr
  refine ⟨r, hr, hsize, fun i hi u v hu hv => ?_⟩
  obtain ⟨xs, z, hxs, hz, hri⟩ := hread i hi
  have hpair : xs = [u, v] := by
    refine eq_of_forall₂ (R := fun z w => elementAt? z output i = some w) ?_
      (.cons hu (.cons hv .nil))
    exact hxs.imp fun p w hw w' hw' => Option.some.inj (hw.symm.trans hw')
  rw [hpair, hf, Option.some.injEq] at hz
  rw [hri, hz]

/-- The types inferred for the steps of the arithmetic form of a selection. -/
structure SelectForm (α : Type) [Scalar α] (c a b chosen inverse other sum : TensorType) : Prop where
  inferChosen : ∃ s s', Gives ((Operator.pointwise .mul : Operator α).infer [c, a]) s chosen s'
  inferInverse : ∃ s s', Gives ((Operator.invert : Operator α).infer [c]) s inverse s'
  inferOther : ∃ s s', Gives ((Operator.pointwise .mul : Operator α).infer [inverse, b]) s other s'
  inferSum : ∃ s s', Gives ((Operator.pointwise .add : Operator α).infer [chosen, other]) s sum s'

/-- The product of two tensors of known shape can be addressed. -/
def TensorType.ProductFits (x y : TensorType) : Prop :=
  x.isConcrete = true → y.isConcrete = true → ∀ s t s',
    Gives ((Operator.pointwise .mul : Operator ℚ).infer [x, y]) s t s' →
    (wordStrides t.sizes).isSome

theorem TensorType.ProductFits.renamed {x x' y y' : TensorType} (h : x.ProductFits y)
    (hx : x.Renamed id x') (hy : y.Renamed id y') : x'.ProductFits y' := by
  -- Types of known shape that are alike are the same.
  have same : ∀ {x y : TensorType}, x.Renamed id y → y.isConcrete = true → x = y := by
    intro x y hxy hy
    have hx := shape_beq_symm hxy.shape
    rw [shape_eq_of_isConcrete hy] at hx
    refine ext_of ?_ (Operator.order_ext ?_)
    · rw [known_of_shape_beq hx, shape_eq_of_isConcrete hy]
    · rw [hxy.axes, List.map_id]
  intro hcx hcy
  rw [same hx hcx, same hy hcy] at h
  exact h hcx hcy

/-- How the types of the form are broadcast. The complement has the type of the condition. -/
theorem SelectForm.broadcasts {c a b chosen inverse other sum : TensorType}
    (k : SelectForm ℚ c a b chosen inverse other sum) : inverse = c ∧
      (c.Broadcasts chosen ∧ a.Broadcasts chosen) ∧ (c.Broadcasts other ∧ b.Broadcasts other) ∧
      (chosen.Broadcasts sum ∧ other.Broadcasts sum) ∧ Sized chosen.shape ∧ Sized other.shape := by
  obtain ⟨_, _, hchosen⟩ := k.inferChosen
  obtain ⟨_, _, hinverse⟩ := k.inferInverse
  obtain ⟨_, _, hother⟩ := k.inferOther
  obtain ⟨_, _, hsum⟩ := k.inferSum
  obtain rfl := infer_pointwise_single hinverse
  have pair : ∀ {f : Pointwise ℚ} {x y t : TensorType} {s s' : Supply},
      Gives ((Operator.pointwise f).infer [x, y]) s t s' → x.Broadcasts t ∧ y.Broadcasts t := by
    intro f x y t s s' h
    have hfit := (Operator.fits_infer h).2
    exact ⟨hfit x (by simp), hfit y (by simp)⟩
  exact ⟨rfl, pair hchosen, pair hother, pair hsum, (checked_infer hchosen).sized,
    (checked_infer hother).sized⟩

/-- The complement of the conditions. -/
theorem exists_evaluate_invert {c : TensorType} {dc : Array ℚ} (hc : c.isConcrete = true)
    (hsized : Sized c.shape) (haddr : Addressable (c, dc)) :
    ∃ d, Operator.invert.evaluate [(c, dc)] c = .ok d ∧ d.size = c.sizes.prod ∧
      ∀ i < c.sizes.prod, ∀ u, dc[i]? = some u → d[i]? = some (u * -1 + 1) := by
  have hself : c.Broadcasts c := fun e he => ⟨e.2, he, .inl (Dim.beq_refl e.2)⟩
  have hin : ∀ z ∈ [(c, dc)], z.1.Broadcasts c ∧ Sized z.1.shape ∧ Addressable z := by
    intro z hz
    obtain rfl := List.mem_singleton.1 hz
    exact ⟨hself, hsized, haddr⟩
  have hvalue : ∀ xs : List ℚ, xs.length = [(c, dc)].length →
      ∃ z, (Pointwise.affine (Scalar.negOne : ℚ) Scalar.one).eval? xs = some z := by
    intro xs hlen
    obtain ⟨u, rfl⟩ := List.length_eq_one_iff.1 hlen
    exact ⟨_, rfl⟩
  obtain ⟨d, hd⟩ := exists_evaluate_broadcast hc hin hvalue
  obtain ⟨-, hsize, hread⟩ :=
    (evaluate_broadcast_iff hc fun z hz => ⟨(hin z hz).1, (hin z hz).2.1⟩).1 hd
  refine ⟨d, hd, hsize, fun i hi u hu => ?_⟩
  obtain ⟨xs, z, hxs, hz, hdi⟩ := hread i hi
  cases hxs with
  | cons hw hnil =>
    cases hnil
    unfold elementAt? at hw
    rw [TensorType.sourcePosition_self hc hi] at hw
    obtain rfl := Option.some.inj (hu.symm.trans hw)
    cases hz
    exact hdi

/-- A selection by a truth value is a sum of products. -/
theorem eval_select_truth {u v w y : ℚ} (hu : IsTruth u)
    (hy : Pointwise.select.eval? [u, v, w] = some y) : y = u * v + (u * -1 + 1) * w := by
  rw [select_arithmetic_iff.2 hu]
  simp only [Pointwise.eval?, bind, Option.bind, List.getElem?_cons_zero,
    List.getElem?_cons_succ] at hy
  split at hy
  · next hholds =>
    rw [if_pos hholds]
    exact (Option.some.inj hy).symm
  · next hholds =>
    rw [if_neg hholds]
    exact (Option.some.inj hy).symm

/-- Where the conditions are truth values, the arithmetic form has the value of the selection. -/
theorem evaluate_selectForm {c a b chosen inverse other sum : TensorType}
    {dc da db r : Array ℚ} (k : SelectForm ℚ c a b chosen inverse other sum)
    (hsized : Sized c.shape ∧ Sized a.shape ∧ Sized b.shape) (htruth : ∀ x ∈ dc, IsTruth x)
    (hchosen : (wordStrides chosen.sizes).isSome) (hother : (wordStrides other.sizes).isSome)
    (h : (Operator.pointwise .select).evaluate [(c, dc), (a, da), (b, db)] sum = .ok r) :
    ∃ d₁ d₂ d₃, (Operator.pointwise .mul).evaluate [(c, dc), (a, da)] chosen = .ok d₁ ∧
      Operator.invert.evaluate [(c, dc)] inverse = .ok d₂ ∧
      (Operator.pointwise .mul).evaluate [(inverse, d₂), (b, db)] other = .ok d₃ ∧
      (Operator.pointwise .add).evaluate [(chosen, d₁), (other, d₃)] sum = .ok r := by
  obtain ⟨rfl, ⟨hc₁, ha₁⟩, ⟨hc₂, hb₂⟩, ⟨h₁, h₂⟩, hsized₁, hsized₂⟩ := k.broadcasts
  obtain ⟨shape, -, hshape, -⟩ := evaluate_pointwise_ok_iff.1 h
  have hsum := TensorType.isConcrete_of_shape hshape
  have hin : ∀ x ∈ [(inverse, dc), (a, da), (b, db)],
      x.1.Broadcasts sum ∧ Sized x.1.shape := by
    simp only [List.forall_mem_cons, List.not_mem_nil, false_imp_iff, implies_true, and_true]
    exact ⟨⟨hc₁.trans h₁, hsized.1⟩, ⟨ha₁.trans h₁, hsized.2.1⟩, hb₂.trans h₂, hsized.2.2⟩
  obtain ⟨haddr, hsize, hread⟩ := (evaluate_broadcast_iff hsum hin).1 h
  simp only [List.forall_mem_cons, List.not_mem_nil, false_imp_iff, implies_true,
    and_true] at haddr
  obtain ⟨haddrc, haddra, haddrb⟩ := haddr
  have hconc₁ := h₁.isConcrete hsum
  have hconc₂ := h₂.isConcrete hsum
  obtain ⟨d₁, he₁, hsize₁, hr₁⟩ := exists_evaluate_binary (f := .mul) (fun _ _ => rfl) hconc₁
    ⟨hc₁, hsized.1, haddrc⟩ ⟨ha₁, hsized.2.1, haddra⟩
  obtain ⟨d₂, he₂, hsize₂, hr₂⟩ :=
    exists_evaluate_invert (hc₁.isConcrete hconc₁) hsized.1 haddrc
  obtain ⟨d₃, he₃, hsize₃, hr₃⟩ := exists_evaluate_binary (f := .mul) (x := (inverse, d₂))
    (fun _ _ => rfl) hconc₂ ⟨hc₂, hsized.1, hsize₂, haddrc.2⟩ ⟨hb₂, hsized.2.2, haddrb⟩
  refine ⟨d₁, d₂, d₃, he₁, he₂, he₃, (evaluate_broadcast_iff hsum ?_).2 ⟨?_, hsize, ?_⟩⟩
  · simp only [List.forall_mem_cons, List.not_mem_nil, false_imp_iff, implies_true, and_true]
    exact ⟨⟨h₁, hsized₁⟩, h₂, hsized₂⟩
  · simp only [List.forall_mem_cons, List.not_mem_nil, false_imp_iff, implies_true, and_true]
    exact ⟨⟨hsize₁, hchosen⟩, hsize₃, hother⟩
  · intro i hi
    obtain ⟨xs, y, hxs, hy, hri⟩ := hread i hi
    obtain ⟨u, v, w, rfl⟩ := List.length_eq_three.1 hxs.length_eq.symm
    obtain ⟨hu, hv, hw⟩ : elementAt? (inverse, dc) sum i = some u ∧
        elementAt? (a, da) sum i = some v ∧ elementAt? (b, db) sum i = some w := by
      simpa using hxs
    have hi₁ := h₁.sourcePosition_lt hsum hi
    have hi₂ := h₂.sourcePosition_lt hsum hi
    have hleft : elementAt? (chosen, d₁) sum i = some (u * v) := by
      refine hr₁ _ hi₁ u v ?_ ?_
      · rw [elementAt?, hc₁.sourcePosition_through h₁ hsum hi]
        exact hu
      · rw [elementAt?, ha₁.sourcePosition_through h₁ hsum hi]
        exact hv
    have hright : elementAt? (other, d₃) sum i = some ((u * -1 + 1) * w) := by
      refine hr₃ _ hi₂ (u * -1 + 1) w (hr₂ _ (hc₂.sourcePosition_lt hconc₂ hi₂) u ?_) ?_
      · rw [hc₂.sourcePosition_through h₂ hsum hi]
        exact hu
      · rw [elementAt?, hb₂.sourcePosition_through h₂ hsum hi]
        exact hw
    have hvalue : y = u * v + (u * -1 + 1) * w :=
      eval_select_truth (htruth u (Array.mem_of_getElem? hu)) hy
    exact ⟨[u * v, (u * -1 + 1) * w], y, .cons hleft (.cons hright .nil), by rw [hvalue]; rfl, hri⟩

end

end TensorCompiler
