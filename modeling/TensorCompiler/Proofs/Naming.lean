import TensorCompiler.Operator.Infer
import TensorCompiler.Proofs.Outcome
/-!
# What symbols stand for

Two dimensions are compared by the numbers of their symbols. That is sound as long as no number
is given twice: then there is a table (`Names`) in which every symbol in use is found under its
number, and symbols with one number are one symbol.

* `Dim.eq_of_same`: dimensions with names in one table are equal if they compare equal.
* `named_combine`, `named_product`, `named_make`, `named_infer`: whatever creates symbols extends
  the table and keeps what it held.
* `make_gives_iff`: what a successful check of a shape says about it.
-/

namespace TensorCompiler

/-- What each number stands for. -/
abbrev Names := Nat → Dim

namespace Dim

/-- The symbols of a dimension are found under their numbers, all of them below `n`. -/
def Named (σ : Names) (n : Nat) : Dim → Prop
  | known _ => True
  | free s => s.number < n ∧ σ s.number = free s
  | derived k op x y => k < n ∧ σ k = derived k op x y ∧ x.Named σ n ∧ y.Named σ n

theorem named_known (σ : Names) (n m : Nat) : (known m).Named σ n := trivial

theorem Named.mono {σ τ : Names} {n m : Nat} {d : Dim} (h : d.Named σ n)
    (hτ : ∀ k < n, τ k = σ k) (hnm : n ≤ m) : d.Named τ m := by
  induction d with
  | known m => exact named_known τ _ m
  | free s => exact ⟨Nat.lt_of_lt_of_le h.1 hnm, (hτ _ h.1).trans h.2⟩
  | derived k op x y ihx ihy =>
    obtain ⟨hk, e, hx, hy⟩ := h
    exact ⟨Nat.lt_of_lt_of_le hk hnm, (hτ _ hk).trans e, ihx hx, ihy hy⟩

theorem Named.lookup {σ : Names} {n k : Nat} {d : Dim} (h : d.Named σ n)
    (hk : d.symbol? = some k) : σ k = d := by
  cases d with
  | known _ => cases hk
  | free s => cases hk; exact h.2
  | derived _ _ _ _ => cases hk; exact h.2.1

theorem same_iff {x y : Dim} : x.same y = true ↔ x.known? = y.known? ∧ x.symbol? = y.symbol? := by
  cases x <;> cases y <;> simp [same, known?, symbol?]

theorem beq_iff {x y : Dim} : (x == y) = true ↔ x.known? = y.known? ∧ x.symbol? = y.symbol? :=
  same_iff

theorem beq_refl (x : Dim) : (x == x) = true := beq_iff.2 ⟨rfl, rfl⟩

theorem beq_symm {x y : Dim} (h : (x == y) = true) : (y == x) = true := by
  rw [beq_iff] at h ⊢
  exact ⟨h.1.symm, h.2.symm⟩

theorem beq_trans {x y z : Dim} (h : (x == y) = true) (h' : (y == z) = true) :
    (x == z) = true := by
  rw [beq_iff] at h h' ⊢
  exact ⟨h.1.trans h'.1, h.2.trans h'.2⟩

theorem known?_eq_some_iff {d : Dim} {n : Nat} : d.known? = some n ↔ d = known n := by
  cases d <;> simp [known?]

theorem eq_known_of_symbol?_none {d : Dim} (h : d.symbol? = none) : ∃ n, d = known n := by
  cases d with
  | known n => exact ⟨n, rfl⟩
  | free _ => cases h
  | derived _ _ _ _ => cases h

/-- Dimensions named in one table are told apart by the comparison. -/
theorem eq_of_same {σ : Names} {n m : Nat} {x y : Dim} (hx : x.Named σ n) (hy : y.Named σ m)
    (h : (x == y) = true) : x = y := by
  obtain ⟨hk, hs⟩ := beq_iff.1 h
  cases e : x.symbol? with
  | none =>
    obtain ⟨a, rfl⟩ := eq_known_of_symbol?_none e
    exact (known?_eq_some_iff.1 (hk.symm.trans rfl)).symm
  | some k => exact (hx.lookup e).symm.trans (hy.lookup (hs.symm.trans e))

theorem combine_makes_iff {op : Arith} {x y d : Dim} {s s' : Supply} :
    Makes (combine op x y) s d s' ↔ simplify? op x y = some d ∧ s = s' ∨
      simplify? op x y = none ∧ d = derived s.next op x y ∧ s' = ⟨s.next + 1⟩ := by
  unfold combine
  split
  · next z hz => rw [makes_pure_iff, hz]; simp
  · next hz =>
    rw [hz]
    show ((derived s.next op x y, (⟨s.next + 1⟩ : Supply)) = (d, s')) ↔ _
    simp [eq_comm]

/-- A step without a new symbol computes a known value or gives one of its operands. -/
theorem simplify?_computes {op : Arith} {x y d : Dim} (h : simplify? op x y = some d) :
    (∃ a b n, x = known a ∧ y = known b ∧ op.apply a b = some n ∧ d = known n) ∨ d = x ∨ d = y := by
  unfold simplify? at h
  split at h
  · next a b ha hb =>
    obtain ⟨n, hn, rfl⟩ := Option.map_eq_some_iff.1 h
    exact .inl ⟨a, b, n, known?_eq_some_iff.1 ha, known?_eq_some_iff.1 hb, hn, rfl⟩
  · split at h <;> try cases h
    all_goals split at h <;> cases h
    all_goals exact .inr (.inl rfl)
  · split at h <;> try cases h
    all_goals split at h <;> cases h
    all_goals exact .inr (.inr rfl)
  · cases h

theorem simplify?_cases {op : Arith} {x y d : Dim} (h : simplify? op x y = some d) :
    (∃ n, d = known n) ∨ d = x ∨ d = y := by
  rcases simplify?_computes h with ⟨-, -, n, -, -, -, hd⟩ | hd
  · exact .inl ⟨n, hd⟩
  · exact .inr hd

end Dim

/-- The second table keeps what the first one holds for the numbers given out so far. -/
structure Grows (σ : Names) (s : Supply) (τ : Names) (s' : Supply) : Prop where
  le : s.next ≤ s'.next
  keeps : ∀ k < s.next, τ k = σ k

namespace Grows

variable {σ τ ρ : Names} {s s' s'' : Supply}

theorem refl (σ : Names) (s : Supply) : Grows σ s σ s := ⟨Nat.le_refl _, fun _ _ => rfl⟩

theorem of_le (σ : Names) (h : s.next ≤ s'.next) : Grows σ s σ s' := ⟨h, fun _ _ => rfl⟩

theorem trans (h : Grows σ s τ s') (h' : Grows τ s' ρ s'') : Grows σ s ρ s'' :=
  ⟨Nat.le_trans h.le h'.le, fun k hk =>
    (h'.keeps k (Nat.lt_of_lt_of_le hk h.le)).trans (h.keeps k hk)⟩

theorem named (h : Grows σ s τ s') {d : Dim} (hd : d.Named σ s.next) : d.Named τ s'.next :=
  hd.mono h.keeps h.le

end Grows

section Creating

open Dim

variable {σ : Names} {s s' : Supply}

/-- The table with the next number given to a symbol. -/
def Names.give (σ : Names) (s : Supply) (d : Dim) : Names :=
  fun k => if k = s.next then d else σ k

theorem grows_give (σ : Names) (s : Supply) (d : Dim) : Grows σ s (σ.give s d) ⟨s.next + 1⟩ :=
  ⟨Nat.le_succ _, fun _ hk => if_neg (Nat.ne_of_lt hk)⟩

theorem named_ofLabel {label : String} {d : Dim} (h : Makes (ofLabel label) s d s') :
    ∃ τ, Grows σ s τ s' ∧ d.Named τ s'.next := by
  have h : (free ⟨s.next, label⟩, (⟨s.next + 1⟩ : Supply)) = (d, s') := h
  cases h
  exact ⟨_, grows_give σ s _, Nat.lt_succ_self _, if_pos rfl⟩

theorem named_combine {op : Arith} {x y d : Dim} (hx : x.Named σ s.next) (hy : y.Named σ s.next)
    (h : Makes (combine op x y) s d s') : ∃ τ, Grows σ s τ s' ∧ d.Named τ s'.next := by
  rcases combine_makes_iff.1 h with ⟨hz, rfl⟩ | ⟨-, rfl, rfl⟩
  · refine ⟨σ, .refl σ s, ?_⟩
    rcases simplify?_cases hz with ⟨n, rfl⟩ | rfl | rfl
    · exact named_known σ _ n
    · exact hx
    · exact hy
  · have k := grows_give σ s (derived s.next op x y)
    exact ⟨_, k, Nat.lt_succ_self _, if_pos rfl, k.named hx, k.named hy⟩

theorem named_foldlM_mul {dims : List Dim} {acc d : Dim} (hacc : acc.Named σ s.next)
    (hd : ∀ x ∈ dims, x.Named σ s.next) (h : Makes (dims.foldlM (combine .mul) acc) s d s') :
    ∃ τ, Grows σ s τ s' ∧ d.Named τ s'.next := by
  induction dims generalizing acc σ s with
  | nil =>
    obtain ⟨rfl, rfl⟩ := makes_pure_iff.1 h
    exact ⟨σ, .refl σ s, hacc⟩
  | cons x dims ih =>
    rw [List.foldlM_cons, makes_bind_iff] at h
    obtain ⟨acc', s₁, hx, h⟩ := h
    obtain ⟨τ, k, hacc'⟩ := named_combine hacc (hd x (List.mem_cons_self ..)) hx
    obtain ⟨ρ, k', hn⟩ := ih hacc' (fun y hy => k.named (hd y (List.mem_cons_of_mem _ hy))) h
    exact ⟨ρ, k.trans k', hn⟩

theorem named_product {dims : List Dim} {d : Dim} (hd : ∀ x ∈ dims, x.Named σ s.next)
    (h : Makes (product dims) s d s') : ∃ τ, Grows σ s τ s' ∧ d.Named τ s'.next :=
  named_foldlM_mul (named_known σ _ 1) hd h

/-- A successful check of a shape leaves it as it is; its size has been computed and has not
overflowed. -/
theorem make_gives_iff {shape : List Dim} {order : Order} {t : TensorType} :
    Gives (TensorType.make shape order) s t s' ↔ t.shape = shape ∧ t.order = order ∧
      ∃ size, Makes (product shape) s size s' ∧ ∀ d ∈ shape ++ [size], d.overflowed = false := by
  unfold TensorType.make
  split
  · next hr =>
    simp only [gives_bind_iff, gives_fresh_iff]
    constructor
    · rintro ⟨size, s₁, hsize, h⟩
      split at h
      · exact (gives_throw_iff.1 h).elim
      · next hf =>
        obtain ⟨rfl, rfl⟩ := gives_pure_iff.1 h
        refine ⟨rfl, rfl, size, hsize, fun d hd => ?_⟩
        have := List.find?_eq_none.1 hf d hd
        simpa using this
    · rintro ⟨rfl, rfl, size, hsize, hf⟩
      refine ⟨size, s', hsize, ?_⟩
      rw [List.find?_eq_none.2 fun d hd => by simp [hf d hd]]
      exact gives_pure_iff.2 ⟨rfl, rfl⟩
  · next hr =>
    constructor
    · intro h
      exact (gives_throw_iff.1 h).elim
    · rintro ⟨rfl, rfl, -⟩
      exact absurd t.rank_eq hr

/-- Every dimension of a type has a name. -/
def TensorType.Named (σ : Names) (n : Nat) (t : TensorType) : Prop := ∀ d ∈ t.shape, d.Named σ n

theorem Grows.namedType {τ : Names} (h : Grows σ s τ s') {t : TensorType}
    (ht : t.Named σ s.next) : t.Named τ s'.next := fun d hd => h.named (ht d hd)

theorem named_make {shape : List Dim} {order : Order} {t : TensorType}
    (hd : ∀ d ∈ shape, d.Named σ s.next) (h : Gives (TensorType.make shape order) s t s') :
    ∃ τ, Grows σ s τ s' ∧ t.Named τ s'.next := by
  obtain ⟨rfl, -, size, hsize, -⟩ := make_gives_iff.1 h
  obtain ⟨τ, k, -⟩ := named_product hd hsize
  exact ⟨τ, k, k.namedType hd⟩

/-! ## Shape inference -/

theorem mem_dims_shape {t : TensorType} {e : Axis × Dim} (h : e ∈ t.dims) : e.2 ∈ t.shape :=
  (List.of_mem_zip (show (e.1, e.2) ∈ _ from h)).2

/-- Broadcasting makes up no dimension. -/
theorem mem_of_broadcastDim {clash : Axis → GraphError} {dims dims' : List (Axis × Dim)}
    {e : Axis × Dim} (h : TensorType.broadcastDim clash dims e = .ok dims') {d : Axis × Dim}
    (hd : d ∈ dims') : d ∈ dims ∨ d = e := by
  obtain ⟨a, size⟩ := e
  simp only [TensorType.broadcastDim] at h
  split at h
  · cases h
    simpa using hd
  · next present _ =>
    split at h
    · cases h
      exact .inl hd
    · split at h
      · cases h
        obtain ⟨d', hd', e⟩ := List.mem_map.1 hd
        split at e
        · exact .inr e.symm
        · exact .inl (e ▸ hd')
      · cases h

theorem mem_of_broadcastDims {clash : Axis → GraphError} {inputs : List TensorType}
    {dims : List (Axis × Dim)} (h : TensorType.broadcastDims clash inputs = .ok dims)
    {d : Axis × Dim} (hd : d ∈ dims) : ∃ t ∈ inputs, d ∈ t.dims := by
  suffices h : ∀ d ∈ dims, ∃ t ∈ inputs, d ∈ t.dims from h d hd
  refine foldlM_ok_induction (P := fun dims => ∀ d ∈ dims, ∃ t ∈ inputs, d ∈ t.dims) h ?_ ?_
  · intro d hd
    cases hd
  · intro dims e dims' he ih h d hd
    rcases mem_of_broadcastDim h hd with hd | rfl
    · exact ih d hd
    · obtain ⟨t, ht, hd⟩ := List.mem_flatMap.1 he
      exact ⟨t, List.mem_mergeSort.1 ht, hd⟩

theorem known_of_sliceExtents {fault : Mismatch → GraphError} {i : Nat}
    {ranges : List (Dim × Nat × Nat × Nat)} {shape : List Dim}
    (h : Operator.sliceExtents fault i ranges = .ok shape) {d : Dim} (hd : d ∈ shape) :
    ∃ n, d = known n := by
  induction ranges generalizing i shape with
  | nil => cases h; cases hd
  | cons r ranges ih =>
    obtain ⟨size, start, stop, step⟩ := r
    simp only [Operator.sliceExtents] at h
    split at h
    · cases h
    · split at h
      · cases h
      · obtain ⟨rest, hrest, h⟩ := bind_ok_iff.1 h
        cases h
        rcases List.mem_cons.1 hd with rfl | hd
        · exact ⟨_, rfl⟩
        · exact ih hrest hd

theorem named_mapM_combine {op : Arith} {pairs : List (Dim × Nat)} {shape : List Dim}
    (hp : ∀ p ∈ pairs, p.1.Named σ s.next)
    (h : Makes (pairs.mapM fun p => combine op p.1 (known p.2)) s shape s') :
    ∃ τ, Grows σ s τ s' ∧ ∀ d ∈ shape, d.Named τ s'.next := by
  induction pairs generalizing σ s shape with
  | nil =>
    rw [List.mapM_nil, makes_pure_iff] at h
    obtain ⟨rfl, rfl⟩ := h
    exact ⟨σ, .refl σ s, fun d hd => by cases hd⟩
  | cons p pairs ih =>
    obtain ⟨d, s₁, ds, hd, hds, rfl⟩ := makes_mapM_cons_iff.1 h
    obtain ⟨τ, k, hn⟩ := named_combine (hp p (List.mem_cons_self ..)) (named_known σ _ p.2) hd
    obtain ⟨ρ, k', hn'⟩ := ih (fun q hq => k.named (hp q (List.mem_cons_of_mem _ hq))) hds
    refine ⟨ρ, k.trans k', fun x hx => ?_⟩
    rcases List.mem_cons.1 hx with rfl | hx
    · exact k'.named hn
    · exact hn' x hx

variable {α : Type} {types : List TensorType} {t : TensorType}

theorem soleInput_ok_iff {β : Type} {kind : OpKind} {inputs : List β} {x : β} :
    Operator.soleInput kind inputs = .ok x ↔ inputs = [x] := by
  unfold Operator.soleInput
  split
  · simp
  · next h =>
    constructor
    · intro e
      cases e
    · rintro rfl
      exact absurd rfl (h x)

theorem ofList_ok_iff {axes : List Axis} {o : Order} : Order.ofList axes = .ok o ↔ o.axes = axes := by
  unfold Order.ofList
  split
  · next p hp =>
    rw [Order.ofList?_eq_some_iff] at hp
    constructor
    · rintro ⟨⟩
      exact hp
    · intro h
      cases o
      cases p
      simp_all
  · next hn =>
    rw [Order.ofList?_eq_none_iff] at hn
    constructor
    · rintro ⟨⟩
    · rintro rfl
      exact absurd o.nodup hn

theorem infer_pointwise {f : Pointwise α}
    (h : Gives ((Operator.pointwise f).infer types) s t s') :
    types.length = f.kind.arity ∧ ∃ dims order,
      TensorType.broadcastDims (fun a => .mismatch f.kind (.sizesDisagree a) types) types =
        .ok dims ∧ order.axes = dims.map (·.1) ∧
      Gives (TensorType.make (dims.map (·.2)) order) s t s' := by
  simp only [Operator.infer, gives_guard_iff, gives_bind_iff, gives_except_iff] at h
  obtain ⟨hlen, dims, _, ⟨hdims, rfl⟩, order, _, ⟨horder, rfl⟩, h⟩ := h
  exact ⟨Decidable.not_not.1 hlen, dims, order, hdims, ofList_ok_iff.1 horder, h⟩

theorem infer_tile {m : List Nat} (h : Gives ((Operator.tile m : Operator α).infer types) s t s') :
    ∃ x, types = [x] ∧ m.length = x.rank ∧ 0 ∉ m ∧ ∃ shape s₁,
      Makes ((x.shape.zip m).mapM fun p => combine .mul p.1 (known p.2)) s shape s₁ ∧
      Gives (TensorType.make shape x.order) s₁ t s' := by
  simp only [Operator.infer, gives_guard_iff, gives_bind_iff, gives_except_iff,
    soleInput_ok_iff] at h
  obtain ⟨x, _, ⟨hx, rfl⟩, hrank, hzero, shape, s₁, hshape, h⟩ := h
  exact ⟨x, hx, Decidable.not_not.1 hrank, hzero, shape, s₁, gives_mapM_fresh_iff.1 hshape, h⟩

theorem infer_slice {start stop step : List Nat}
    (h : Gives ((Operator.slice start stop step : Operator α).infer types) s t s') :
    ∃ x, types = [x] ∧ (start.length = x.rank ∧ stop.length = x.rank ∧ step.length = x.rank) ∧
      ∃ fault shape, Operator.sliceExtents fault 0
        (x.shape.zip (start.zip (stop.zip step))) = .ok shape ∧
      Gives (TensorType.make shape x.order) s t s' := by
  simp only [Operator.infer, gives_guard_iff, gives_bind_iff, gives_except_iff,
    soleInput_ok_iff] at h
  obtain ⟨x, _, ⟨hx, rfl⟩, hrank, shape, _, ⟨hshape, rfl⟩, h⟩ := h
  simp only [not_or, ne_eq, Decidable.not_not] at hrank
  exact ⟨x, hx, hrank, _, shape, hshape, h⟩

theorem infer_reinterpret {source target : Order}
    (h : Gives ((Operator.reinterpret source target : Operator α).infer types) s t s') :
    ∃ x, types = [x] ∧ source.rank = target.rank ∧ x.order = source ∧
      Gives (TensorType.make x.shape target) s t s' := by
  simp only [Operator.infer, gives_guard_iff, gives_bind_iff, gives_except_iff,
    soleInput_ok_iff] at h
  obtain ⟨x, _, ⟨hx, rfl⟩, hrank, horder, h⟩ := h
  exact ⟨x, hx, Decidable.not_not.1 hrank, Decidable.not_not.1 horder, h⟩

theorem infer_resize {a b : Axis} {m n : Nat}
    (h : Gives ((Operator.resize a m b n : Operator α).infer types) s t s') :
    ∃ x i j, types = [x] ∧ a ≠ b ∧ ¬(m = 0 ∨ n = 0) ∧ x.order.indexOf? a = some i ∧
      x.order.indexOf? b = some j ∧
      Gives (TensorType.make ((x.shape.set i (.known m)).set j (.known n)) x.order) s t s' := by
  simp only [Operator.infer, gives_guard_iff, gives_bind_iff, gives_except_iff,
    soleInput_ok_iff] at h
  obtain ⟨x, _, ⟨hx, rfl⟩, hab, hpos, h⟩ := h
  split at h
  · next i j hi hj => exact ⟨x, i, j, hx, hab, hpos, hi, hj, h⟩
  · exact (gives_throw_iff.1 h).elim

/-- The type of an output has names in a table that extends that of the inputs. -/
theorem named_infer {op : Operator α} (ht : ∀ x ∈ types, x.Named σ s.next)
    (h : Gives (op.infer types) s t s') : ∃ τ, Grows σ s τ s' ∧ t.Named τ s'.next := by
  cases op with
  | pointwise f =>
    obtain ⟨-, dims, order, hdims, -, h⟩ := infer_pointwise h
    refine named_make (fun d hd => ?_) h
    obtain ⟨e, he, rfl⟩ := List.mem_map.1 hd
    obtain ⟨x, hx, he⟩ := mem_of_broadcastDims hdims he
    exact ht x hx _ (mem_dims_shape he)
  | tile m =>
    obtain ⟨x, rfl, -, -, shape, s₁, hshape, h⟩ := infer_tile h
    have hx := ht x (List.mem_singleton_self x)
    obtain ⟨τ, k, hn⟩ := named_mapM_combine (fun p hp => hx _ (List.of_mem_zip hp).1) hshape
    obtain ⟨ρ, k', hn'⟩ := named_make hn h
    exact ⟨ρ, k.trans k', hn'⟩
  | slice start stop step =>
    obtain ⟨x, rfl, -, fault, shape, hshape, h⟩ := infer_slice h
    refine named_make (fun d hd => ?_) h
    obtain ⟨n, rfl⟩ := known_of_sliceExtents hshape hd
    exact named_known σ _ n
  | reinterpret source target =>
    obtain ⟨x, rfl, -, -, h⟩ := infer_reinterpret h
    exact named_make (ht x (List.mem_singleton_self x)) h
  | resize a m b n =>
    obtain ⟨x, i, j, rfl, -, -, -, -, h⟩ := infer_resize h
    refine named_make (fun d hd => ?_) h
    rcases List.mem_or_eq_of_mem_set hd with hd | rfl
    · rcases List.mem_or_eq_of_mem_set hd with hd | rfl
      · exact ht x (List.mem_singleton_self x) d hd
      · exact named_known σ _ m
    · exact named_known σ _ n

end Creating

end TensorCompiler
