import Mathlib
import TensorCompiler.Proofs.ExactScalars
import TensorCompiler.Proofs.Movement
import TensorCompiler.Proofs.ValueSizes
/-!
# What inference accepts can be computed

Inference checks shapes, and evaluation computes with them in 64-bit words. On inputs of known shape
with data of their own size, an accepted operator has a value as soon as these words hold what
evaluation multiplies: the strides of what it gathers, and the coordinates that a resize scales. The
check of a shape bounds the product of all sizes, which bounds the strides unless a size is zero.

* `Operator.isConcrete_of_infer`: inputs of known shape have an output of known shape.
* `Operator.Computable`: words hold what evaluation multiplies; `computable_of_pos`.
* `Operator.exists_evaluate_iff`: exactly then there is a value, with one element for each
  coordinate of the output.
-/

namespace TensorCompiler

open Dim

/-! ## Outputs of known shape -/

theorem known_of_not_overflowed {op : Arith} {a b : Nat} {d : Dim} {s s' : Supply}
    (h : Makes (combine op (known a) (known b)) s d s') (hd : d.overflowed = false) :
    ∃ c, d = known c := by
  rcases combine_makes_iff.1 h with ⟨e, -⟩ | ⟨-, rfl, -⟩
  · cases hc : op.apply a b with
    | none => simp [simplify?, known?, hc] at e
    | some c => exact ⟨c, (combine_known hc h).1⟩
  · cases hd

theorem mem_of_mapM_combine {pairs : List (Dim × Nat)} {ds : List Dim} {s s' : Supply}
    (h : Makes (pairs.mapM fun p => combine .mul p.1 (known p.2)) s ds s') {d : Dim} (hd : d ∈ ds) :
    ∃ p ∈ pairs, ∃ s₁ s₂, Makes (combine .mul p.1 (known p.2)) s₁ d s₂ := by
  induction pairs generalizing s ds with
  | nil =>
    rw [List.mapM_nil, makes_pure_iff] at h
    obtain ⟨rfl, -⟩ := h
    cases hd
  | cons p pairs ih =>
    obtain ⟨e, s₁, es, he, hes, rfl⟩ := makes_mapM_cons_iff.1 h
    rcases List.mem_cons.1 hd with rfl | hd
    · exact ⟨p, List.mem_cons_self .., s, s₁, he⟩
    · obtain ⟨q, hq, hmakes⟩ := ih hes hd
      exact ⟨q, List.mem_cons_of_mem p hq, hmakes⟩

namespace TensorType

theorem isConcrete_iff {t : TensorType} : t.isConcrete = true ↔ ∀ d ∈ t.shape, ∃ n, d = known n := by
  simp only [isConcrete, List.all_eq_true, isKnown, Option.isSome_iff_exists, known?_eq_some_iff]

theorem isConcrete_of_concreteSize {t : TensorType} {n : Nat} (h : t.concreteSize = .ok n) :
    t.isConcrete = true := by
  obtain ⟨ns, hns, -⟩ := concreteSize_ok_iff.1 h
  exact isConcrete_of_shape hns

end TensorType

namespace Operator

variable {α : Type} {op : Operator α} {t : TensorType} {s s' : Supply}

/-- Inputs of known shape have an output of known shape. -/
theorem isConcrete_of_infer {types : List TensorType} (h : Gives (op.infer types) s t s')
    (htypes : ∀ x ∈ types, x.isConcrete = true) : t.isConcrete = true := by
  have hchecked := (checked_infer h).dims
  rw [TensorType.isConcrete_iff]
  intro d hd
  cases op with
  | pointwise f =>
    obtain ⟨-, dims, order, hdims, -, h⟩ := infer_pointwise h
    rw [(make_gives_iff.1 h).1] at hd
    obtain ⟨e, he, rfl⟩ := List.mem_map.1 hd
    obtain ⟨x, hx, he⟩ := mem_of_broadcastDims hdims he
    exact TensorType.isConcrete_iff.1 (htypes x hx) e.2 (mem_dims_shape he)
  | tile m =>
    obtain ⟨x, rfl, -, -, shape, s₁, hshape, h⟩ := infer_tile h
    rw [(make_gives_iff.1 h).1] at hd hchecked
    obtain ⟨⟨e, k⟩, hp, _, _, hmakes⟩ := mem_of_mapM_combine hshape hd
    obtain ⟨n, rfl⟩ := TensorType.isConcrete_iff.1 (htypes x (List.mem_singleton_self x)) e
      (List.of_mem_zip hp).1
    exact known_of_not_overflowed hmakes (hchecked d hd)
  | slice start stop step =>
    obtain ⟨x, -, -, fault, shape, hshape, h⟩ := infer_slice h
    rw [(make_gives_iff.1 h).1] at hd
    exact known_of_sliceExtents hshape hd
  | reinterpret source target =>
    obtain ⟨x, rfl, -, -, h⟩ := infer_reinterpret h
    rw [(make_gives_iff.1 h).1] at hd
    exact TensorType.isConcrete_iff.1 (htypes x (List.mem_singleton_self x)) d hd
  | resize a m b n =>
    obtain ⟨x, i, j, rfl, -, -, -, -, h⟩ := infer_resize h
    rw [(make_gives_iff.1 h).1] at hd
    rcases List.mem_or_eq_of_mem_set hd with hd | rfl
    · rcases List.mem_or_eq_of_mem_set hd with hd | rfl
      · exact TensorType.isConcrete_iff.1 (htypes x (List.mem_singleton_self x)) d hd
      · exact ⟨m, rfl⟩
    · exact ⟨n, rfl⟩

/-! ## What evaluation multiplies -/

/-- Words hold what evaluation multiplies on inputs of these types: the row-major strides of all
inputs that it gathers, and what a resize scales if the output has elements. -/
structure Computable (op : Operator α) (types : List TensorType) (t : TensorType) : Prop where
  strides : op.kind ≠ .reinterpretAxis → ∀ x ∈ types, (wordStrides x.sizes).isSome
  scales : 0 < t.sizes.prod → ∀ x ∈ types, ∀ (d : Nat) (a : Axis) (n m : Nat),
    x.order.axes[d]? = some a → x.sizes[d]? = some n → t.sizes[d]? = some m → op.ScalesAt a n m

/-- Without sizes of zero, only a resize can leave the words. -/
theorem computable_of_pos {types : List TensorType} (hsized : ∀ x ∈ types, x.sizes.prod < wordLimit)
    (hpos : ∀ x ∈ types, ∀ n ∈ x.sizes, 0 < n)
    (hresize : op.kind = .resize2d → ∀ x ∈ types, ∀ n ∈ x.sizes, ∀ m ∈ t.sizes, n * m < wordLimit) :
    op.Computable types t where
  strides _ x hx := by rw [wordStrides_of_pos (hpos x hx) (hsized x hx)]; rfl
  scales _ x hx d a n m _ hn hm := by
    have hn := List.mem_of_getElem? hn
    exact scalesAt_of_mul_lt (hpos x hx n hn) fun hk => hresize hk x hx n hn m (List.mem_of_getElem? hm)

theorem MovesAt.input_pos {a : Axis} {d x y : Nat} (h : op.MovesAt a d x y)
    (hscales : op.ScalesAt a x y) (hy : 0 < y) : 0 < x := by
  cases op with
  | pointwise f => cases h
  | tile m =>
    obtain ⟨k, -, rfl⟩ := h
    exact Nat.pos_of_mul_pos_right hy
  | slice start stop step =>
    obtain ⟨b, e, k, -, -, -, -, hrange, hle, -⟩ := h
    omega
  | reinterpret source target =>
    obtain rfl : y = x := h
    exact hy
  | resize a₁ m a₂ n =>
    rcases h with h | h | rfl
    · exact (hscales (.inl h)).1
    · exact (hscales (.inr h)).1
    · exact hy

theorem kind_pointwise_ne (f : Pointwise α) : (pointwise f).kind ≠ .reinterpretAxis := by
  cases f <;> simp [kind, Pointwise.kind]

/-! ## What a value takes -/

variable {x : TensorType} {xs ys : List Nat}

theorem wordStrides_of_gather {map : CoordinateMap} {o : Order} {x : TensorType × Array α}
    {r : Array α} (h : gather map ys o x = .ok r) : (wordStrides x.1.sizes).isSome := by
  obtain ⟨xs, strides, hxs, -, hstrides, -⟩ := gather_ok_iff.1 h
  rw [TensorType.sizes_eq hxs, hstrides]
  rfl

/-- The last element has the last coordinate along every axis. -/
theorem unravel_last {sizes : List Nat} (hpos : ∀ n ∈ sizes, 0 < n) :
    unravel sizes (sizes.prod - 1) = sizes.map (· - 1) := by
  induction sizes using List.reverseRecOn with
  | nil => rfl
  | append_singleton sizes n ih =>
    have hn : 0 < n := hpos n (by simp)
    have hsizes : ∀ m ∈ sizes, 0 < m := fun m hm => hpos m (List.mem_append_left _ hm)
    have hprod : 0 < sizes.prod := List.prod_pos_iff_forall_pos_nat.2 hsizes
    have hlast : sizes.prod * n - 1 = (n - 1) + (sizes.prod - 1) * n := by
      obtain ⟨p, hp⟩ := Nat.exists_eq_add_of_lt hprod
      rw [hp, Nat.zero_add, Nat.add_sub_cancel, Nat.add_mul]
      omega
    have hlt : n - 1 < n := by omega
    rw [List.prod_append, List.prod_singleton, hlast, unravel_concat, Nat.add_mul_div_right _ _ hn,
      Nat.add_mul_mod_self_right, Nat.div_eq_of_lt hlt, Nat.mod_eq_of_lt hlt, Nat.zero_add,
      ih hsizes, List.map_append, List.map_singleton]

variable [Scalar α]

/-- A resize that has a value with elements reaches its last element within words. -/
theorem scalesAt_of_evaluate {a₁ a₂ a : Axis} {m n d k l : Nat} {data r : Array α}
    (hx : x.shape = xs.map known) (ht : t.shape = ys.map known) (horder : t.order = x.order)
    (h : (resize a₁ m a₂ n : Operator α).evaluate [(x, data)] t = .ok r) (hpos : 0 < ys.prod)
    (ha : x.order.axes[d]? = some a) (hk : xs[d]? = some k) (hl : ys[d]? = some l) :
    (resize a₁ m a₂ n : Operator α).ScalesAt a k l := by
  intro haxis
  obtain ⟨ys', ht', hg⟩ := (evaluate_gather_iff rfl).1 h
  obtain rfl := map_known_injective (ht.symm.trans ht')
  obtain ⟨xs', strides, hx', hdata, hstrides, -, hread⟩ := gather_ok_iff.1 hg
  obtain rfl := map_known_injective (hx.symm.trans hx')
  obtain ⟨index, y, hindex, hy, -⟩ := hread (ys.prod - 1) (by omega)
  have hposx : ∀ n ∈ xs, 0 < n :=
    pos_of_lt_prod (hdata ▸ (Array.getElem?_eq_some_iff.1 hy).1 : index < xs.prod)
  refine ⟨hposx k (List.mem_of_getElem? hk), ?_⟩
  -- The walk to the last element multiplies its last coordinate by the size of the input.
  obtain ⟨parts, hparts, -, -⟩ := sourceIndex_eq_some_iff.1 hindex
  have hstep : (walkOf t.order.axes ys (ys.prod - 1))[d]? = some (a, l - 1, l) := by
    simp only [walkOf, List.getElem?_zip_eq_some, horder,
      unravel_last (pos_of_lt_prod (show 0 < ys.prod from hpos)), List.getElem?_map, hl]
    exact ⟨ha, rfl, trivial⟩
  obtain ⟨p, -, hp⟩ := exists_of_forall₂_left hparts (List.mem_of_getElem? hstep)
  have hd : d < (strideList xs).length :=
    length_strideList xs ▸ (List.getElem?_eq_some_iff.1 hk).1
  rw [wordStrides_eq hstrides] at hp
  simp only [sourcePart, find?_sourceAxes x.order.nodup ha hk (List.getElem?_eq_getElem hd),
    CoordinateMap.scale, if_pos haxis, bind, Option.bind_eq_some_iff] at hp
  obtain ⟨_, ⟨product, hproduct, -⟩, -⟩ := hp
  simp only [Arith.apply] at hproduct
  split at hproduct
  · assumption
  · cases hproduct

/-! ## Values -/

theorem exists_eval {f : Pointwise α} {xs : List α} (h : xs.length = f.kind.arity) :
    ∃ y, f.eval? xs = some y := by
  have pair : xs.length = 2 → ∃ x y, xs = [x, y] := List.length_eq_two.1
  cases f with
  | affine scale bias =>
    obtain ⟨x, rfl⟩ := List.length_eq_one_iff.1 h
    exact ⟨_, rfl⟩
  | select =>
    obtain ⟨c, x, y, rfl⟩ := List.length_eq_three.1 h
    by_cases hc : Scalar.holds c
    · exact ⟨x, by simp [Pointwise.eval?, hc]⟩
    · exact ⟨y, by simp [Pointwise.eval?, hc]⟩
  | _ =>
    obtain ⟨x, y, rfl⟩ := pair h
    exact ⟨_, rfl⟩

omit [Scalar α] in
theorem sole_of_infer {types : List TensorType} (hop : ∀ f, op ≠ .pointwise f)
    (h : Gives (op.infer types) s t s') : ∃ x, types = [x] := by
  have hfits := fits_infer h
  cases op with
  | pointwise f => exact absurd rfl (hop f)
  | _ =>
    obtain ⟨x, rfl, -⟩ := hfits
    exact ⟨x, rfl⟩

/-- An operator that moves data moves it if words hold what it multiplies. -/
theorem Computable.exists_move {data : Array α} (hc : op.Computable [x] t)
    (hop : ∀ f, op ≠ .pointwise f) (h : Gives (op.infer [x]) s t s') (hx : x.shape = xs.map known)
    (ht : t.shape = ys.map known) (hsized : xs.prod < wordLimit) (hdata : data.size = xs.prod) :
    ∃ r, op.evaluate [(x, data)] t = .ok r := by
  have hmoves : op.Moves x.order.axes xs ys := moves_of_infer hop h hx ht
  rcases gathers_or_reinterprets hop with ⟨map, hmap⟩ | ⟨source, target, rfl⟩
  · have hkind : op.kind ≠ .reinterpretAxis := by
      rintro hkind
      cases op <;> simp_all [kind, coordinateMap?]
    obtain ⟨strides, hstrides⟩ := Option.isSome_iff_exists.1 (hc.strides hkind x (by simp))
    rw [TensorType.sizes_eq hx] at hstrides
    rcases Nat.eq_zero_or_pos ys.prod with hempty | hpos
    · refine ⟨#[], (evaluate_gather_iff hmap).2 ⟨ys, ht, gather_ok_iff.2
        ⟨xs, strides, hx, hdata, hstrides, hempty.symm, fun i hi => ?_⟩⟩⟩
      omega
    · have hposy : ∀ n ∈ ys, 0 < n := List.prod_pos_iff_forall_pos_nat.1 hpos
      have hscales : ∀ (d : Nat) (a : Axis) (n m : Nat), x.order.axes[d]? = some a →
          xs[d]? = some n → ys[d]? = some m → op.ScalesAt a n m := by
        have := hc.scales
        simpa only [TensorType.sizes_eq hx, TensorType.sizes_eq ht, List.mem_singleton, forall_eq,
          hpos, forall_const] using this
      have hposx : ∀ n ∈ xs, 0 < n := by
        intro n hn
        obtain ⟨d, hd, rfl⟩ := List.mem_iff_getElem.1 hn
        obtain ⟨a, n, m, -, -, ha, hn, hm, -, -⟩ := hmoves.exists_axis 0 hd
        rw [(List.getElem?_eq_some_iff.1 hn).2]
        exact (hmoves.sizes d a n m ha hn hm).input_pos (hscales d a n m ha hn hm)
          (hposy m (List.mem_of_getElem? hm))
      obtain ⟨r, hr, -⟩ := hmoves.exists_evaluate hop hx ht (fits_infer h) hposx hposy hsized
        hscales hdata
      exact ⟨r, hr⟩
  · refine ⟨data, ?_⟩
    simp only [evaluate, bind_ok_iff, concreteShape_ok_iff, firstInput, Except.ok.injEq,
      pure_ok_iff, exists_eq_left', and_true]
    exact ⟨ys, ht⟩

theorem Computable.of_move {data r : Array α} (hop : ∀ f, op ≠ .pointwise f)
    (hfits : op.Fits [x] t) (hx : x.shape = xs.map known) (ht : t.shape = ys.map known)
    (h : op.evaluate [(x, data)] t = .ok r) : op.Computable [x] t where
  strides hkind y hy := by
    obtain rfl := List.mem_singleton.1 hy
    rcases gathers_or_reinterprets hop with ⟨map, hmap⟩ | ⟨source, target, rfl⟩
    · obtain ⟨_, -, hg⟩ := (evaluate_gather_iff hmap).1 h
      exact wordStrides_of_gather hg
    · exact absurd rfl hkind
  scales hpos y hy d a n m ha hn hm := by
    obtain rfl := List.mem_singleton.1 hy
    rw [TensorType.sizes_eq ht] at hpos hm
    rw [TensorType.sizes_eq hx] at hn
    cases op with
    | resize a₁ m₁ a₂ m₂ =>
      obtain ⟨_, ⟨⟩, horder, -⟩ := hfits
      exact scalesAt_of_evaluate hx ht horder h hpos ha hn hm
    | _ => trivial

theorem computable_pointwise_iff {f : Pointwise α} {inputs : List (TensorType × Array α)}
    (h : Gives ((pointwise f).infer (inputs.map (·.1))) s t s')
    (hin : ∀ x ∈ inputs, Sized x.1.shape ∧ x.1.concreteSize = .ok x.2.size) :
    (∃ r, (pointwise f).evaluate inputs t = .ok r) ↔
      (pointwise f).Computable (inputs.map (·.1)) t := by
  obtain ⟨harity, hdims⟩ := fits_infer h
  have ht : t.isConcrete = true := isConcrete_of_infer h fun y hy => by
    obtain ⟨x, hx, rfl⟩ := List.mem_map.1 hy
    exact TensorType.isConcrete_of_concreteSize (hin x hx).2
  have hbroadcasts : ∀ x ∈ inputs, x.1.Broadcasts t := fun x hx =>
    hdims x.1 (List.mem_map_of_mem hx)
  constructor
  · rintro ⟨r, hr⟩
    have haddressable := ((evaluate_broadcast_iff ht fun x hx =>
      ⟨hbroadcasts x hx, (hin x hx).1⟩).1 hr).1
    refine ⟨fun _ y hy => ?_, fun _ _ _ _ _ _ _ _ _ _ => trivial⟩
    obtain ⟨x, hx, rfl⟩ := List.mem_map.1 hy
    exact (haddressable x hx).2
  · intro hc
    refine exists_evaluate_broadcast ht (fun x hx => ⟨hbroadcasts x hx, (hin x hx).1, ?_, ?_⟩)
      fun xs hxs => exists_eval (hxs.trans (by simpa using harity))
    · obtain ⟨ns, hns, hsize⟩ := concreteSize_ok_iff.1 (hin x hx).2
      rw [TensorType.sizes_eq hns, hsize]
    · exact hc.strides (kind_pointwise_ne f) x.1 (List.mem_map_of_mem hx)

/-- On inputs of known shape with data of their own size, an operator that inference accepts has a
value exactly if words hold what evaluation multiplies, and it is one for each coordinate. -/
theorem exists_evaluate_iff {inputs : List (TensorType × Array α)}
    (h : Gives (op.infer (inputs.map (·.1))) s t s')
    (hin : ∀ x ∈ inputs, Sized x.1.shape ∧ x.1.concreteSize = .ok x.2.size) :
    (∃ r, op.evaluate inputs t = .ok r ∧ t.concreteSize = .ok r.size) ↔
      op.Computable (inputs.map (·.1)) t := by
  have hsize : ∀ r, op.evaluate inputs t = .ok r → t.concreteSize = .ok r.size := by
    intro r hr
    have hzip : inputs = (inputs.map (·.1)).zip (inputs.map (·.2)) := List.zip_of_prod rfl rfl
    rw [hzip] at hr
    exact size_of_evaluate hr (fits_infer h).keepsShape fun x hx => (hin x (hzip ▸ hx)).2
  have hiff : (∃ r, op.evaluate inputs t = .ok r) ↔ op.Computable (inputs.map (·.1)) t := by
    by_cases hop : ∀ f, op ≠ .pointwise f
    · obtain ⟨x, hx⟩ := sole_of_infer hop h
      obtain ⟨⟨x, data⟩, rfl, rfl⟩ := List.map_eq_singleton_iff.1 hx
      obtain ⟨hsized, hdata⟩ := hin _ (List.mem_singleton_self _)
      obtain ⟨xs, hxs, hdata⟩ := concreteSize_ok_iff.1 hdata
      have ht := TensorType.shape_eq_of_isConcrete (isConcrete_of_infer h fun y hy => by
        obtain rfl := List.mem_singleton.1 hy
        exact TensorType.isConcrete_of_shape hxs)
      constructor
      · rintro ⟨r, hr⟩
        exact .of_move hop (fits_infer h) hxs ht hr
      · intro hc
        exact hc.exists_move hop h hxs ht (hsized xs hxs) hdata
    · push Not at hop
      obtain ⟨f, rfl⟩ := hop
      exact computable_pointwise_iff h hin
  rw [← hiff]
  exact exists_congr fun r => and_iff_left_of_imp (hsize r)

/-! ### Images, and nothing -/

/-- An image with one channel. -/
def plane (h w : Nat) : TensorType :=
  ⟨[known h, known w], ⟨[.height, .width], by decide⟩, rfl⟩

theorem sized_plane {h w : Nat} (hword : h * w < wordLimit) : Sized (plane h w).shape := by
  intro ns hns
  obtain rfl : [h, w] = ns := map_known_injective hns
  simpa using hword

/-- A column of two pixels is stretched to three. -/
theorem stretched_has_value : ∃ r, (resize .height 3 .width 1 : Operator ℚ).evaluate
    [(plane 2 1, #[5, 7])] (plane 3 1) = .ok r ∧ (plane 3 1).concreteSize = .ok r.size := by
  have hinfer : Gives ((resize .height 3 .width 1 : Operator ℚ).infer
      ([(plane 2 1, (#[5, 7] : Array ℚ))].map (·.1))) ⟨0⟩ (plane 3 1) ⟨0⟩ := rfl
  refine (exists_evaluate_iff hinfer ?_).2 (computable_of_pos ?_ ?_ ?_)
  · exact List.forall_mem_singleton.2 ⟨sized_plane (by decide), rfl⟩
  · exact List.forall_mem_singleton.2 (by decide)
  · exact List.forall_mem_singleton.2 (by decide)
  · exact fun _ => List.forall_mem_singleton.2 (by decide)

/-- No matrices, each of them so large that the stride of the first axis is no word. -/
def noMatrices : TensorType :=
  ⟨[known 0, known 0x10000000000, known 0x10000000000],
    ⟨[.batch, .height, .width], by decide⟩, rfl⟩

/-- Inference accepts them, for there is no element to count, but evaluation fails on their strides. -/
theorem noMatrices_have_no_value :
    Gives ((pointwise (.affine 1 0) : Operator ℚ).infer [noMatrices]) ⟨0⟩ noMatrices ⟨0⟩ ∧
      Sized noMatrices.shape ∧ noMatrices.concreteSize = .ok (#[] : Array ℚ).size ∧
      ¬ ∃ r, (pointwise (.affine 1 0) : Operator ℚ).evaluate [(noMatrices, #[])] noMatrices =
        .ok r := by
  refine ⟨by unfold Gives; cbv, ?_, rfl, ?_⟩
  · intro ns hns
    obtain rfl : [0, 0x10000000000, 0x10000000000] = ns := map_known_injective hns
    decide
  · rintro ⟨r, hr⟩
    cases hr

/-- An image without rows has no pixel to stretch. -/
example : Gives ((resize .height 1 .width 1 : Operator ℚ).infer [plane 0 1]) ⟨0⟩ (plane 1 1) ⟨0⟩ ∧
    (resize .height 1 .width 1 : Operator ℚ).evaluate [(plane 0 1, #[])] (plane 1 1) =
      .error (.dataLength 1 0) :=
  ⟨rfl, by cbv⟩

end Operator

end TensorCompiler
