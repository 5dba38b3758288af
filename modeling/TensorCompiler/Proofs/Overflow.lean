import TensorCompiler.Proofs.LinearKernel
/-!
# Overflow in descriptors

The check of a shape looks at its dimensions and at the product from the left. Strides multiply from
the right, and the dynamic space adds sizes up, so these steps need conditions of their own: a zero
or a symbol can hide a product from the check. Under them, nothing in a descriptor for linear memory
has overflowed, and known shapes leave nothing symbolic behind.

* `Dim.Exact`: no step has overflowed, and nothing is symbolic if nothing may be.
* `StridesFit`: the known dimensions behind the others have a product that fits a word.
* `stridesFit_of_pos`: shapes without zeros and symbols meet this condition.
* `MemoryLayout.exact_of_allocate`: offsets and sizes of a layout are exact.
* `exact_of_generate`: the theorem about descriptors.
* `crowded_overflows`: sizes that are words overflow when they are added.
-/

namespace TensorCompiler

open Dim

/-! ## Steps -/

/-- No step of the dimension has overflowed, and it is known if it has to be. -/
structure Dim.Exact (concrete : Prop) (d : Dim) : Prop where
  fits : d.overflowed = false
  known : concrete → ∃ n, d = .known n

section

variable {C : Prop} {op : Arith} {x y d : Dim} {n : Nat} {s s' : Supply}

theorem exact_known : (known n).Exact C := ⟨rfl, fun _ => ⟨n, rfl⟩⟩

theorem known_of_simplify? (h : simplify? op x y = some (known n)) :
    ∃ a b, x = known a ∧ y = known b ∧ op.apply a b = some n := by
  rcases simplify?_computes h with ⟨a, b, m, hx, hy, hm, e⟩ | rfl | rfl
  · cases e
    exact ⟨a, b, hx, hy, hm⟩
  · cases hy : y.known? with
    | none => cases op <;> simp_all [simplify?, known?]
    | some b =>
      obtain rfl := known?_eq_some_iff.1 hy
      simp only [simplify?, known?, Option.map_eq_some_iff, known.injEq] at h
      obtain ⟨m, hm, rfl⟩ := h
      exact ⟨m, b, rfl, rfl, hm⟩
  · cases hx : x.known? with
    | none => cases op <;> simp_all [simplify?, known?]
    | some a =>
      obtain rfl := known?_eq_some_iff.1 hx
      simp only [simplify?, known?, Option.map_eq_some_iff, known.injEq] at h
      obtain ⟨m, hm, rfl⟩ := h
      exact ⟨a, m, rfl, rfl, hm⟩

/-- Only known operands give a known result. -/
theorem known_of_combine (h : Makes (combine op x y) s (known n) s') :
    ∃ a b, x = known a ∧ y = known b ∧ op.apply a b = some n := by
  rcases combine_makes_iff.1 h with ⟨h, -⟩ | ⟨-, h, -⟩
  · exact known_of_simplify? h
  · cases h

/-- A step on exact operands is exact if it can be carried out where both are known. -/
theorem exact_combine (hx : x.Exact C) (hy : y.Exact C)
    (hop : ∀ a b, x = known a → y = known b → ∃ c, op.apply a b = some c)
    (h : Makes (combine op x y) s d s') : d.Exact C := by
  have hboth : ∀ a b, x = known a → y = known b → ∃ c, d = known c := by
    rintro a b rfl rfl
    obtain ⟨c, hc⟩ := hop a b rfl rfl
    exact ⟨c, (combine_known hc h).1⟩
  refine ⟨?_, fun hC => ?_⟩
  · rcases combine_makes_iff.1 h with ⟨h, -⟩ | ⟨hnone, rfl, -⟩
    · rcases simplify?_computes h with ⟨-, -, n, -, -, -, rfl⟩ | rfl | rfl
      · rfl
      · exact hx.fits
      · exact hy.fits
    · simp only [overflowed, hx.fits, hy.fits, Bool.or_false, Bool.and_eq_false_iff]
      by_contra hknown
      simp only [not_or, Bool.not_eq_false, isKnown, Option.isSome_iff_exists,
        known?_eq_some_iff] at hknown
      obtain ⟨⟨a, rfl⟩, b, rfl⟩ := hknown
      obtain ⟨c, hc⟩ := hboth a b rfl rfl
      cases hc
  · obtain ⟨a, rfl⟩ := hx.known hC
    obtain ⟨b, rfl⟩ := hy.known hC
    exact hboth a b rfl rfl

end

/-! ## Sizes and strides -/

/-- The known dimensions behind the others have a product that fits a word. The outermost dimension
is no part of any stride. -/
def StridesFit (shape : List Dim) : Prop :=
  ∀ ns : List Nat, ns.map known <:+ shape.tail → ns.prod < wordLimit

section

variable {C : Prop} {shape : List Dim} {d : Dim} {s s' : Supply}

theorem StridesFit.tail {x : Dim} (h : StridesFit (x :: shape)) : StridesFit shape := fun ns hns =>
  h ns (hns.trans (List.tail_suffix shape))

theorem prod_le_of_suffix {ms ns : List Nat} (hpos : ∀ n ∈ ns, 0 < n) (h : ms <:+ ns) :
    ms.prod ≤ ns.prod := by
  obtain ⟨front, rfl⟩ := h
  rw [List.prod_append]
  exact Nat.le_mul_of_pos_left _
    (List.prod_pos_iff_forall_pos_nat.2 fun n hn => hpos n (List.mem_append_left _ hn))

/-- Without zeros and symbols, the check of the size covers the strides. -/
theorem stridesFit_of_pos {ns : List Nat} (hchecked : Checked (ns.map known))
    (hpos : ∀ n ∈ ns, 0 < n) : StridesFit (ns.map known) := by
  intro ms hms
  have hsuffix : ms.map known <:+ ns.map known := hms.trans (List.tail_suffix _)
  obtain ⟨front, hfront⟩ := hsuffix
  obtain ⟨l₁, l₂, rfl, -, hl₂⟩ := List.map_eq_append_iff.1 hfront.symm
  obtain rfl := map_known_injective hl₂
  exact Nat.lt_of_le_of_lt (prod_le_of_suffix hpos (List.suffix_append _ _))
    (hchecked.leading _ (List.prefix_refl _))

theorem exact_product (hdims : ∀ d ∈ shape, d.Exact C) (hchecked : Checked shape)
    (h : Makes (Dim.product shape) s d s') : d.Exact C := by
  -- A known accumulator is what is left of a known front.
  suffices gen : ∀ acc s, acc.Exact C →
      (∀ (n : Nat) (ns : List Nat), acc = known n → ns.map known <+: shape →
        n * ns.prod < wordLimit) →
      Makes (shape.foldlM (combine .mul) acc) s d s' → d.Exact C from
    gen _ s exact_known (fun n ns hn hns => by
      cases hn
      rw [Nat.one_mul]
      exact hchecked.leading ns hns) h
  clear h hchecked
  induction shape with
  | nil =>
    intro acc s hacc _ h
    obtain ⟨rfl, -⟩ := makes_pure_iff.1 h
    exact hacc
  | cons x shape ih =>
    intro acc s hacc hfront h
    obtain ⟨hx, hdims⟩ := List.forall_mem_cons.1 hdims
    rw [List.foldlM_cons, makes_bind_iff] at h
    obtain ⟨acc', s₁, hacc', h⟩ := h
    refine ih hdims acc' s₁ (exact_combine hacc hx (fun a b ha hb => ?_) hacc') ?_ h
    · have hab := hfront a [b] ha ⟨shape, by rw [hb]; rfl⟩
      rw [List.prod_singleton] at hab
      exact ⟨a * b, if_pos hab⟩
    · rintro n ns rfl hns
      obtain ⟨a, b, rfl, rfl, hab⟩ := known_of_combine hacc'
      obtain ⟨-, hab⟩ := Option.ite_none_right_eq_some.1 hab
      obtain rfl := Option.some.inj hab
      have := hfront a (b :: ns) rfl (List.cons_prefix_cons.2 ⟨rfl, hns⟩)
      rwa [List.prod_cons, ← Nat.mul_assoc] at this

/-- Strides are exact if the trailing products fit. The outermost stride is the product of all
dimensions but the outermost, if these are known. -/
theorem exact_stridesOf {ds : List Dim} (hdims : ∀ d ∈ shape, d.Exact C) (hfit : StridesFit shape)
    (h : Makes (TensorType.stridesOf shape) s ds s') : (∀ d ∈ ds, d.Exact C) ∧
      ∀ n, ds.headD (known 1) = known n →
        ∃ ns : List Nat, shape.tail = ns.map known ∧ n = ns.prod := by
  induction shape generalizing ds s s' with
  | nil =>
    obtain ⟨rfl, -⟩ := makes_pure_iff.1 h
    refine ⟨by simp, fun n hn => ⟨[], rfl, ?_⟩⟩
    cases hn
    rfl
  | cons x shape ih =>
    cases shape with
    | nil =>
      obtain ⟨rfl, -⟩ := makes_pure_iff.1 h
      refine ⟨List.forall_mem_singleton.2 exact_known, fun n hn => ⟨[], rfl, ?_⟩⟩
      cases hn
      rfl
    | cons y shape =>
      have hdims := (List.forall_mem_cons.1 hdims).2
      simp only [TensorType.stridesOf, makes_bind_iff, makes_pure_iff] at h
      obtain ⟨inner, s₁, hinner, outer, s₂, houter, rfl, rfl⟩ := h
      obtain ⟨hin, hhead⟩ := ih hdims hfit.tail hinner
      have hhead' : (inner.headD (known 1)).Exact C := by
        cases inner with
        | nil => exact exact_known
        | cons d inner => exact hin d (List.mem_cons_self ..)
      refine ⟨List.forall_mem_cons.2 ⟨?_, hin⟩, fun n hn => ?_⟩
      · refine exact_combine hhead' (hdims y (List.mem_cons_self ..)) (fun a b ha hb => ?_) houter
        obtain ⟨ns, hns, rfl⟩ := hhead a ha
        have := hfit (b :: ns) ⟨[], by rw [List.map_cons, ← hns, ← hb]; rfl⟩
        rw [List.prod_cons, Nat.mul_comm] at this
        exact ⟨_, if_pos this⟩
      · rw [List.headD_cons] at hn
        subst hn
        obtain ⟨a, b, ha, rfl, hab⟩ := known_of_combine houter
        obtain ⟨-, hab⟩ := Option.ite_none_right_eq_some.1 hab
        obtain ⟨ns, hns, rfl⟩ := hhead a ha
        refine ⟨b :: ns, congrArg (known b :: ·) hns, ?_⟩
        rw [List.prod_cons, Nat.mul_comm b, Option.some.inj hab]

/-- A checked shape with fitting strides is exact throughout. -/
theorem allExact {t : TensorType} (hchecked : Checked t.shape) (hfit : StridesFit t.shape)
    (hknown : C → t.isConcrete = true) : t.All (Dim.Exact C) := by
  have hdims : ∀ d ∈ t.shape, d.Exact C := fun d hd => ⟨hchecked.dims d hd, fun hC => by
    have := List.all_eq_true.1 (hknown hC) d hd
    obtain ⟨n, hn⟩ := Option.isSome_iff_exists.1 this
    exact ⟨n, known?_eq_some_iff.1 hn⟩⟩
  exact ⟨hdims, fun _ _ _ h => (exact_stridesOf hdims hfit h).1,
    fun _ _ _ h => exact_product hdims hchecked h⟩

end

/-! ## Placements -/

/-- The known sizes of the variables in the dynamic space add up to this. -/
def dynamicTotal (table : List (VarId × Allocation)) : Nat :=
  ((table.filter (·.2.space = .dynamic)).map (·.2.size.stored)).sum

theorem dynamicTotal_append (table table' : List (VarId × Allocation)) :
    dynamicTotal (table ++ table') = dynamicTotal table + dynamicTotal table' := by
  simp [dynamicTotal]

namespace Placement

variable {α : Type} {g : Graph α} {C : Prop} {p p' : Placement} {s s' : Supply}

/-- Offsets and sizes are exact, and a known top is at most the sum of the sizes. -/
structure Exact (C : Prop) (p : Placement) : Prop where
  top : p.space.top.Exact C
  bounded : ∀ n, p.space.top = known n → n ≤ dynamicTotal p.table
  free : ∀ r ∈ p.space.free, r.offset.Exact C
  table : ∀ e ∈ p.table, e.2.offset.Exact C ∧ e.2.size.Exact C

/-- The size of the variable is exact. -/
def Measurable (g : Graph α) (C : Prop) (v : VarId) : Prop :=
  ∀ t, g.tensor v = .ok t → ∀ s d s', Makes t.type.size s d s' → d.Exact C

theorem le_of_place {v : VarId} (h : Gives (place g p v) s p' s') :
    dynamicTotal p.table ≤ dynamicTotal p'.table := by
  rcases place_gives_iff.1 h with ⟨-, rfl, -⟩ | ⟨-, t, size, s₁, a, space, -, -, -, rfl⟩
  · exact Nat.le_refl _
  · rw [dynamicTotal_append]
    exact Nat.le_add_right _ _

theorem exact_place {v : VarId} (h : Gives (place g p v) s p' s') (hp : p.Exact C)
    (hv : Measurable g C v) (htotal : dynamicTotal p'.table < wordLimit) : p'.Exact C := by
  rcases place_gives_iff.1 h with ⟨-, rfl, -⟩ | ⟨-, t, size, s₁, a, space, ht, hsize, ha, rfl⟩
  · exact hp
  · have hsize := hv t ht _ _ _ hsize
    have hsum : dynamicTotal (p.table ++ [(v, a)]) =
        dynamicTotal p.table + dynamicTotal [(v, a)] := dynamicTotal_append _ _
    rcases DynamicSpace.alloc_cases ha with
      ⟨r, pre, post, hfree, -, rfl, htop, hfree', -⟩ | ⟨rfl, htop, hfree⟩
    · refine ⟨htop ▸ hp.top, fun n hn => ?_, fun r' hr' => ?_, List.forall_mem_append.2 ⟨hp.table, ?_⟩⟩
      · exact hsum ▸ Nat.le_add_right_of_le (hp.bounded n (htop ▸ hn))
      · refine hp.free r' ?_
        rw [hfree]
        rw [hfree'] at hr'
        exact List.mem_append.2 ((List.mem_append.1 hr').imp_right (List.mem_cons_of_mem r))
      · exact List.forall_mem_singleton.2 ⟨hp.free r (by simp [hfree]), hsize⟩
    · have hadd : ∀ a b, p.space.top = known a → size = known b →
          a + b ≤ dynamicTotal (p.table ++ [(v, ⟨.dynamic, p.space.top, size⟩)]) := by
        intro a b ha hb
        have htotal : dynamicTotal [(v, (⟨.dynamic, p.space.top, size⟩ : Allocation))] = b := by
          simp [dynamicTotal, hb, Dim.stored, known?]
        rw [hsum, htotal]
        exact Nat.add_le_add_right (hp.bounded a ha) b
      have hstep : ∀ a b, p.space.top = known a → size = known b →
          ∃ c, Arith.add.apply a b = some c := fun a b ha hb =>
        ⟨_, if_pos (Nat.lt_of_le_of_lt (hadd a b ha hb) htotal)⟩
      refine ⟨?_, fun n hn => ?_, hfree ▸ hp.free, List.forall_mem_append.2 ⟨hp.table, ?_⟩⟩
      · exact exact_combine hp.top hsize hstep htop
      · rw [show space.top = known n from hn] at htop
        obtain ⟨a, b, ha, hb, hab⟩ := known_of_combine htop
        obtain ⟨-, hab⟩ := Option.ite_none_right_eq_some.1 hab
        exact Option.some.inj hab ▸ hadd a b ha hb
      · exact List.forall_mem_singleton.2 ⟨hp.top, hsize⟩

theorem le_of_places {vs : List VarId} (h : Gives (vs.foldlM (place g) p) s p' s') :
    dynamicTotal p.table ≤ dynamicTotal p'.table := by
  induction vs generalizing p s with
  | nil =>
    obtain ⟨rfl, -⟩ := gives_foldlM_nil_iff.1 h
    exact Nat.le_refl _
  | cons v vs ih =>
    obtain ⟨p₁, s₁, hv, h⟩ := gives_foldlM_cons_iff.1 h
    exact Nat.le_trans (le_of_place hv) (ih h)

-- The sum only grows, so the bound at the end is one for every step.
theorem exact_places {vs : List VarId} (h : Gives (vs.foldlM (place g) p) s p' s')
    (hp : p.Exact C) (hvs : ∀ v ∈ vs, Measurable g C v)
    (htotal : dynamicTotal p'.table < wordLimit) : p'.Exact C := by
  induction vs generalizing p s with
  | nil =>
    obtain ⟨rfl, -⟩ := gives_foldlM_nil_iff.1 h
    exact hp
  | cons v vs ih =>
    obtain ⟨hv, hvs⟩ := List.forall_mem_cons.1 hvs
    obtain ⟨p₁, s₁, hplace, h⟩ := gives_foldlM_cons_iff.1 h
    exact ih h (exact_place hplace hp hv (Nat.lt_of_le_of_lt (le_of_places h) htotal)) hvs

theorem exact_release {v : VarId} (hp : p.Exact C) : (p.release v).Exact C := by
  unfold release
  split
  · next a ha =>
    split
    · refine ⟨hp.top, hp.bounded, List.forall_mem_append.2 ⟨hp.free, ?_⟩, hp.table⟩
      exact List.forall_mem_singleton.2 (hp.table _ (mem_table_of_get? ha)).1
    · exact hp
  · exact hp

theorem exact_releases {vs : List VarId} (hp : p.Exact C) : (vs.foldl release p).Exact C := by
  induction vs generalizing p with
  | nil => exact hp
  | cons v vs ih => exact ih (exact_release hp)

theorem le_of_placeSteps {kept : List VarId} {steps : List MemoryStep}
    (h : Gives (placeSteps g kept p steps) s p' s') :
    dynamicTotal p.table ≤ dynamicTotal p'.table := by
  induction steps generalizing p s with
  | nil =>
    obtain ⟨rfl, -⟩ := gives_pure_iff.1 h
    exact Nat.le_refl _
  | cons m later ih =>
    obtain ⟨p₁, s₁, hm, h⟩ := gives_bind_iff.1 h
    have := ih h
    rw [foldl_release_table] at this
    exact Nat.le_trans (le_of_place hm) this

theorem exact_placeSteps {kept : List VarId} {steps : List MemoryStep}
    (h : Gives (placeSteps g kept p steps) s p' s') (hp : p.Exact C)
    (hsteps : ∀ m ∈ steps, Measurable g C m.output)
    (htotal : dynamicTotal p'.table < wordLimit) : p'.Exact C := by
  induction steps generalizing p s with
  | nil =>
    obtain ⟨rfl, -⟩ := gives_pure_iff.1 h
    exact hp
  | cons m later ih =>
    obtain ⟨hm, hlater⟩ := List.forall_mem_cons.1 hsteps
    obtain ⟨p₁, s₁, hplace, h⟩ := gives_bind_iff.1 h
    have hle := le_of_placeSteps h
    rw [foldl_release_table] at hle
    exact ih h (exact_releases (exact_place hplace hp hm (Nat.lt_of_le_of_lt hle htotal))) hlater

theorem exact_placeConstants {offset size : Nat} {vs : List (VarId × Tensor α)}
    {table : List (VarId × Allocation)} (h : placeConstants offset vs = (table, size)) :
    ∀ e ∈ table, e.2.offset.Exact C ∧ e.2.size.Exact C := by
  induction vs generalizing offset table with
  | nil =>
    cases h
    simp
  | cons e vs ih =>
    obtain ⟨v, t⟩ := e
    unfold placeConstants at h
    split at h
    · exact ih h
    · next data _ =>
      cases hrest : placeConstants (offset + data.size) vs with
      | mk rest size' =>
        rw [hrest] at h
        cases h
        exact List.forall_mem_cons.2 ⟨⟨exact_known, exact_known⟩, ih hrest⟩

end Placement

/-- A layout is exact if the sizes of the variables are, and add up to a word. -/
theorem MemoryLayout.exact_of_allocate {α : Type} {g : Graph α} {C : Prop} {layout : MemoryLayout}
    {s s' : Supply} (h : Gives (allocate g) s layout s')
    (hsizes : ∀ vars, g.reachable = .ok vars → ∀ v ∈ vars, Placement.Measurable g C v)
    (htotal : dynamicTotal layout.allocations < wordLimit) :
    layout.dynamicSize.Exact C ∧
      ∀ e ∈ layout.allocations, e.2.offset.Exact C ∧ e.2.size.Exact C := by
  obtain ⟨vars, ops, steps, ts, table, p₁, s₁, p₂, s₂, p₃, hvars, hops, hsteps, -, htable, hp₁, hp₂,
    hp₃, hall, htop⟩ := allocate_gives h
  rw [hall] at htotal
  have hsizes := hsizes vars hvars
  have hstart : Placement.Exact C { table } := ⟨exact_known, fun n hn => by
    cases hn
    exact Nat.zero_le _, by simp, Placement.exact_placeConstants htable⟩
  have hle₃ := Placement.le_of_places hp₃
  have hle₂ := Placement.le_of_placeSteps hp₂
  have hp₁ := Placement.exact_places hp₁ hstart
    (fun v hv => hsizes v ((Graph.mem_reachable_iff hops hvars).2 (.inl hv))) (by omega)
  have hp₂ := Placement.exact_placeSteps hp₂ hp₁ (fun m hm => by
    obtain ⟨o, ho, n, hn, hout, hins⟩ := exists_of_forall₂_right hsteps hm
    exact hsizes m.output (hout ▸ Graph.operands_reachable hops hvars ho hn hins _
      (List.mem_cons_self ..))) (by omega)
  have hp₃ := Placement.exact_places hp₃ hp₂ hsizes htotal
  exact ⟨htop ▸ hp₃.top, hall ▸ hp₃.table⟩

/-! ## Descriptors -/

/-- The strides of all operands fit. -/
def Graph.StridesFit {α : Type} (g : Graph α) : Prop :=
  ∀ vars, g.reachable = .ok vars → ∀ v ∈ vars, ∀ t, g.tensor v = .ok t →
    TensorCompiler.StridesFit t.type.shape

/-- All shapes that the outputs depend on are known. -/
def Graph.Concrete {α : Type} (g : Graph α) : Prop :=
  ∀ vars, g.reachable = .ok vars → ∀ v ∈ vars, ∀ t, g.tensor v = .ok t → t.type.isConcrete = true

section

variable {α : Type} [ScalarText α] {g : Graph α} {kind : BackendKind} {config : Config}
  {d : Descriptor α} {s₀ s s' : Supply}

variable [Scalar α]

/-- Nothing in a descriptor for linear memory has overflowed, if the strides of all operands fit
words and the sizes in the dynamic space add up to a word. If moreover all shapes are known, there
are no patches, and the extent of the dynamic space is known. -/
theorem exact_of_generate (hkind : kind ≠ .webGl) (hb : Built s₀ g) (hstrides : g.StridesFit)
    (h : Gives (g.generate kind config) s d s')
    (htotal : ∀ layout, d.layout = .memory layout → dynamicTotal layout.allocations < wordLimit) :
    ∃ layout, d.layout = .memory layout ∧ layout.dynamicSize.overflowed = false ∧
      (∀ e ∈ layout.allocations, e.2.offset.overflowed = false ∧ e.2.size.overflowed = false) ∧
      (∀ k ∈ d.kernels, k.dynamicSize.overflowed = false ∧
        ∀ p ∈ k.patches, p.dim.overflowed = false) ∧
      (g.Concrete → layout.dynamicSize.isKnown = true ∧
        ∀ k ∈ d.kernels, k.dynamicSize.isKnown = true ∧ k.patches = []) := by
  obtain ⟨layout, ops, s₁, hlayout, hops, hfilled, hd, -⟩ := filled_of_generate hkind h
  have hg := hb.reached.wellformed
  obtain ⟨ds, hsession⟩ := hb
  obtain ⟨vars, hvars⟩ := Graph.reachable_ok hg hops
  have hall : ∀ v ∈ vars, ∀ t, g.tensor v = .ok t → t.type.All (Dim.Exact g.Concrete) := by
    intro v hv t ht
    obtain ⟨p, hslot⟩ := Graph.tensor_ok_iff.1 ht
    exact allExact (hsession.checked _ _ _ hslot) (hstrides vars hvars v hv t ht)
      fun hconcrete => hconcrete vars hvars v hv t ht
  obtain ⟨hsize, htable⟩ := MemoryLayout.exact_of_allocate (C := g.Concrete) hlayout
    (fun vars' hvars' v hv t ht => (hall v (Except.ok.inj (hvars.symm.trans hvars') ▸ hv) t ht).size)
    (htotal layout hd)
  have hkernels : ∀ k ∈ d.kernels, k.dynamicSize = layout.dynamicSize ∧
      ∀ p ∈ k.patches, p.dim.known? = none ∧ p.dim.Exact g.Concrete := by
    intro k hk
    obtain ⟨o, ho, hfill⟩ := exists_of_forall₂_right hfilled hk
    exact ⟨hfill.dynamicSize, hfill.forall_patches hg hsession.typed hops hvars ho
      (fun _ => exact_known) hall fun e he => (htable e he).1⟩
  have hisKnown : g.Concrete → layout.dynamicSize.isKnown = true := fun hconcrete => by
    obtain ⟨n, hn⟩ := hsize.known hconcrete
    rw [hn]
    rfl
  refine ⟨layout, hd, hsize.fits, fun e he => ⟨(htable e he).1.fits, (htable e he).2.fits⟩,
    fun k hk => ?_, fun hconcrete => ⟨hisKnown hconcrete, fun k hk => ?_⟩⟩
  · obtain ⟨hdynamic, hpatches⟩ := hkernels k hk
    exact ⟨hdynamic ▸ hsize.fits, fun p hp => (hpatches p hp).2.fits⟩
  · obtain ⟨hdynamic, hpatches⟩ := hkernels k hk
    refine ⟨hdynamic ▸ hisKnown hconcrete, List.eq_nil_iff_forall_not_mem.2 fun p hp => ?_⟩
    obtain ⟨hsymbolic, hexact⟩ := hpatches p hp
    obtain ⟨n, hn⟩ := hexact.known hconcrete
    rw [hn] at hsymbolic
    cases hsymbolic

end

namespace Graph

/-- All variables of the repetition have one element. -/
theorem shape_of_repeated {inputs : List VarId} {marks : List Mark} {v : VarId} {t : Tensor ℚ}
    (h : (repeated inputs marks).tensor v = .ok t) : t.type.shape = [known 1] := by
  rw [type_of_repeated h]
  rfl

/-- The repetition of one element is emitted without patches. -/
theorem repeated_exact : ∃ d, Gives ((repeated [⟨0⟩] [.input]).generate .webAssembly {}) {} d {} ∧
    ∃ layout, d.layout = .memory layout ∧ layout.dynamicSize.isKnown = true ∧
      ∀ k ∈ d.kernels, k.patches = [] := by
  obtain ⟨d, k, hd, -, hlayout, -⟩ := generates_repeated allocates_repeated rfl
    ⟨_, _, rfl, rfl, by decide, by decide⟩
  have hstrides : (repeated [⟨0⟩] [.input]).StridesFit := by
    intro vars _ v _ t ht
    rw [shape_of_repeated ht]
    intro ns hns
    obtain rfl := List.map_eq_nil_iff.1 (List.suffix_nil.1 hns)
    decide
  have hconcrete : (repeated [⟨0⟩] [.input]).Concrete := by
    intro vars _ v _ t ht
    rw [TensorType.isConcrete, shape_of_repeated ht]
    rfl
  obtain ⟨layout, hl, -, -, -, hknown⟩ := exact_of_generate (by decide) built_repeated.1 hstrides hd
    fun layout hl => by
      cases hlayout.symm.trans hl
      decide
  exact ⟨d, hd, layout, hl, (hknown hconcrete).1, fun k hk => ((hknown hconcrete).2 k hk).2⟩

/-- Half of all words. -/
def halfType : TensorType :=
  ⟨[.known 0x8000000000000000], ⟨[.channel], List.nodup_singleton _⟩, rfl⟩

/-- Two inputs of half of all words each. -/
def crowded : Graph ℚ where
  slots := #[.live { type := halfType, marks := [.input, .output] } none,
    .live { type := halfType, marks := [.input] } none]
  declaredInputs := [⟨0⟩, ⟨1⟩]
  declaredOutputs := [⟨0⟩]

theorem built_crowded : Built {} crowded := by
  have words : Session true {} [.known 0x8000000000000000] ({} : Graph ℚ) :=
    .word (.empty {}) (by decide)
  have made : (⟨halfType, [], none⟩ : Tensor ℚ).MadeFrom [.known 0x8000000000000000] {} {} :=
    ⟨by simp [halfType], rfl, fun _ hx => by cases hx⟩
  exact ⟨_, .markOutput (.addInput (.addInput words made) made)
    (rfl : Graph.markOutput _ ⟨0⟩ = .ok crowded)⟩

/-- All shapes are known, and each passes the check, but the extent of the dynamic space has
overflowed. -/
theorem crowded_overflows : Built {} crowded ∧ crowded.Concrete ∧
    ∃ d layout s, Gives (crowded.generate .webAssembly {}) {} d s ∧ d.layout = .memory layout ∧
      layout.dynamicSize.overflowed = true ∧ layout.dynamicSize.isKnown = false := by
  obtain ⟨layout, s, hlayout, hoverflow, hunknown, hdynamic, hsize⟩ :
      ∃ layout s, Gives (MemoryLayout.allocate crowded) {} layout s ∧
        layout.dynamicSize.overflowed = true ∧ layout.dynamicSize.isKnown = false ∧
        (∀ e ∈ layout.allocations, e.2.space = .dynamic) ∧ layout.staticSize = 0 :=
    ⟨_, _, rfl, rfl, rfl, List.forall_mem_cons.2 ⟨rfl, List.forall_mem_singleton.2 rfl⟩, rfl⟩
  have hconstants : layout.constants crowded = .ok #[] :=
    MemoryLayout.constants_of_dynamic hdynamic hsize
  refine ⟨built_crowded, fun vars _ v _ t ht => ?_, ⟨.webAssembly, [], .memory layout, #[]⟩, layout,
    s, ?_, rfl, hoverflow, hunknown⟩
  · match v, ht with
    | ⟨0⟩, ht => exact congrArg (fun t => t.type.isConcrete) (Except.ok.inj ht).symm
    | ⟨1⟩, ht => exact congrArg (fun t => t.type.isConcrete) (Except.ok.inj ht).symm
    | ⟨_ + 2⟩, ht => cases ht
  · simp only [Graph.generate, Backend.generate, gives_bind_iff, generates_graph_iff]
    refine ⟨layout, s, generates_graphM_iff.2 hlayout, [], s, ⟨rfl, rfl⟩, [], s, rfl, [], s, rfl, ?_⟩
    simp only [List.flatten_nil, List.map_nil, firstRepeated?, gives_bind_iff, generates_graph_iff,
      gives_pure_iff]
    exact ⟨#[], s, ⟨hconstants, rfl⟩, rfl, rfl⟩

end Graph

end TensorCompiler
