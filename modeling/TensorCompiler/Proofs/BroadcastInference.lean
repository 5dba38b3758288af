import TensorCompiler.Proofs.SelectForm
/-!
# The type of a broadcast

A pointwise operator gathers the dimensions of its inputs one by one, inputs of higher rank first,
and a size of one gives way to any other size. What comes out does not depend on the order in which
the dimensions are met: along each axis it is the only size other than one, and the inputs are
rejected exactly if an axis has two of those.

* `TensorType.CommonSize`, `TensorType.Disagree`: the size along an axis, and inputs without one.
* `TensorType.Gathered`: what the dimensions gathered so far say of those met so far.
* `gathered_broadcastDim`: a step keeps it, or meets two sizes other than one.
* `exists_first_byRank`: the first type of highest rank comes first.
* `infer_broadcast_exact`: the type inferred for a pointwise operator.
-/

namespace TensorCompiler

namespace TensorType

/-- The common size along an axis of some dimensions: one, if no other size is among them, and the
only other size if there is one. -/
def CommonSize (entries : List (Axis × Dim)) (a : Axis) (d : Dim) : Prop :=
  (d.is 1 = true ∧ ∀ n, (a, n) ∈ entries → n.is 1 = true) ∨
  (d.is 1 = false ∧ (a, d) ∈ entries ∧ ∀ n, (a, n) ∈ entries → n.is 1 = true ∨ (d == n) = true)

/-- Two dimensions along one axis have different sizes, and neither is one. -/
def Clash (entries : List (Axis × Dim)) (a : Axis) : Prop :=
  ∃ m n, (a, m) ∈ entries ∧ (a, n) ∈ entries ∧ m.is 1 = false ∧ n.is 1 = false ∧ (m == n) = false

/-- Two of the types have different sizes along one axis, and neither is one. -/
def Disagree (inputs : List TensorType) : Prop :=
  ∃ (i j : Nat) (x y : TensorType) (a : Axis) (m n : Dim), i ≠ j ∧ inputs[i]? = some x ∧
    inputs[j]? = some y ∧ (a, m) ∈ x.dims ∧ (a, n) ∈ y.dims ∧
    m.is 1 = false ∧ n.is 1 = false ∧ (m == n) = false

/-- These axes start with all axes of the first type of highest rank. -/
def StartsWithFirst (inputs : List TensorType) (axes : List Axis) : Prop :=
  ∃ pre x post, inputs = pre ++ x :: post ∧ (∀ y ∈ pre, y.rank < x.rank) ∧
    (∀ y ∈ post, y.rank ≤ x.rank) ∧ x.order.axes <+: axes

/-- The gathered dimensions have each axis of the entries once, with the common size along it. -/
structure Gathered (entries dims : List (Axis × Dim)) : Prop where
  nodup : (dims.map (·.1)).Nodup
  axes : ∀ a, a ∈ dims.map (·.1) ↔ a ∈ entries.map (·.1)
  common : ∀ a d, (a, d) ∈ dims → CommonSize entries a d

section

variable {entries dims dims' : List (Axis × Dim)} {e : Axis × Dim} {a : Axis} {d : Dim}

theorem mem_map_fst : a ∈ entries.map (·.1) ↔ ∃ d, (a, d) ∈ entries := by
  rw [List.mem_map]
  constructor
  · rintro ⟨⟨b, d⟩, h, rfl⟩
    exact ⟨d, h⟩
  · rintro ⟨d, h⟩
    exact ⟨(a, d), h, rfl⟩

theorem eq_of_mem_nodup (h : (dims.map (·.1)).Nodup) {m n : Dim} (hm : (a, m) ∈ dims)
    (hn : (a, n) ∈ dims) : m = n :=
  congrArg Prod.snd (List.inj_on_of_nodup_map h hm hn rfl)

theorem CommonSize.congr {entries' : List (Axis × Dim)} (h : CommonSize entries a d)
    (he : ∀ n, (a, n) ∈ entries' ↔ (a, n) ∈ entries) : CommonSize entries' a d := by
  unfold CommonSize at h ⊢
  simpa only [he] using h

/-- A dimension along another axis does not matter. -/
theorem CommonSize.append_other (h : CommonSize entries a d) (hne : a ≠ e.1) :
    CommonSize (entries ++ [e]) a d := by
  refine h.congr fun n => ?_
  rw [List.mem_append, List.mem_singleton]
  refine or_iff_left ?_
  rintro rfl
  exact hne rfl

/-- A size of one or the common size itself changes nothing. -/
theorem CommonSize.append_same (h : CommonSize entries e.1 d)
    (he : (d == e.2) = true ∨ e.2.is 1 = true) : CommonSize (entries ++ [e]) e.1 d := by
  have cases_mem : ∀ n, (e.1, n) ∈ entries ++ [e] → (e.1, n) ∈ entries ∨ n = e.2 := by
    intro n hn
    rcases List.mem_append.1 hn with hn | hn
    · exact .inl hn
    · exact .inr (congrArg Prod.snd (List.mem_singleton.1 hn))
  rcases h with ⟨hone, hall⟩ | ⟨hother, hmem, hall⟩
  · refine .inl ⟨hone, fun n hn => ?_⟩
    rcases cases_mem n hn with hn | rfl
    · exact hall n hn
    · exact he.elim (fun he => Operator.is_congr he 1 ▸ hone) id
  · refine .inr ⟨hother, List.mem_append_left _ hmem, fun n hn => ?_⟩
    rcases cases_mem n hn with hn | rfl
    · exact hall n hn
    · exact he.symm

/-- Two sizes other than one clash, unless both are the common size. -/
theorem CommonSize.not_clash (h : CommonSize entries a d) : ¬Clash entries a := by
  rintro ⟨m, n, hm, hn, hm1, hn1, hne⟩
  rcases h with ⟨-, hall⟩ | ⟨-, -, hall⟩
  · rw [hall m hm] at hm1
    cases hm1
  · have same : ∀ k, (a, k) ∈ entries → k.is 1 = false → (d == k) = true := fun k hk hk1 =>
      (hall k hk).resolve_left (by rw [hk1]; exact Bool.false_ne_true)
    rw [Dim.beq_trans (Dim.beq_symm (same m hm hm1)) (same n hn hn1)] at hne
    cases hne

theorem Gathered.congr {entries' : List (Axis × Dim)} (h : Gathered entries dims)
    (he : ∀ e, e ∈ entries ↔ e ∈ entries') : Gathered entries' dims := by
  refine ⟨h.nodup, fun a => ?_, fun a d hd => (h.common a d hd).congr fun n => (he _).symm⟩
  rw [h.axes, mem_map_fst, mem_map_fst]
  simp only [he]

theorem Gathered.not_clash (h : Gathered entries dims) (a : Axis) : ¬Clash entries a := by
  rintro ⟨m, n, hm, hrest⟩
  obtain ⟨d, hd⟩ := mem_map_fst.1 ((h.axes a).2 (mem_map_fst.2 ⟨m, hm⟩))
  exact (h.common a d hd).not_clash ⟨m, n, hm, hrest⟩

/-! ## One step -/

/-- An axis that was not met before. -/
theorem Gathered.push (h : Gathered entries dims) (hnew : e.1 ∉ dims.map (·.1)) :
    Gathered (entries ++ [e]) (dims ++ [e]) := by
  have hfresh : ∀ n, (e.1, n) ∉ entries := fun n hn =>
    hnew ((h.axes e.1).2 (mem_map_fst.2 ⟨n, hn⟩))
  have honly : ∀ n, (e.1, n) ∈ entries ++ [e] → n = e.2 := by
    intro n hn
    rcases List.mem_append.1 hn with hn | hn
    · exact absurd hn (hfresh n)
    · exact congrArg Prod.snd (List.mem_singleton.1 hn)
  constructor
  · rw [List.map_append, List.map_singleton, ← List.concat_eq_append]
    exact h.nodup.concat hnew
  · intro a
    simp only [List.map_append, List.mem_append, h.axes]
  · intro a d hd
    rcases List.mem_append.1 hd with hd | hd
    · refine (h.common a d hd).append_other ?_
      rintro rfl
      exact hnew (mem_map_fst.2 ⟨d, hd⟩)
    · obtain rfl := List.mem_singleton.1 hd
      cases hone : d.is 1 with
      | true => exact .inl ⟨hone, fun n hn => by rw [honly n hn]; exact hone⟩
      | false =>
        refine .inr ⟨hone, List.mem_append_right _ (List.mem_singleton_self _), fun n hn => ?_⟩
        exact .inr (by rw [honly n hn]; exact Dim.beq_refl d)

/-- A size that gives way to the one gathered already, or equals it. -/
theorem Gathered.keep (h : Gathered entries dims) {present : Dim} (hp : (e.1, present) ∈ dims)
    (he : (present == e.2) = true ∨ e.2.is 1 = true) : Gathered (entries ++ [e]) dims := by
  refine ⟨h.nodup, fun a => ?_, fun a d hd => ?_⟩
  · have hpast : e.1 ∈ entries.map (·.1) := (h.axes e.1).1 (mem_map_fst.2 ⟨present, hp⟩)
    rw [h.axes, List.map_append, List.mem_append, List.map_singleton, List.mem_singleton]
    exact ⟨.inl, fun ha => ha.elim id fun ha => ha ▸ hpast⟩
  · by_cases ha : a = e.1
    · subst ha
      obtain rfl := eq_of_mem_nodup h.nodup hp hd
      exact (h.common _ _ hp).append_same he
    · exact (h.common a d hd).append_other ha

theorem map_fst_replace : (dims.map fun d => if d.1 = e.1 then e else d).map (·.1) =
    dims.map (·.1) := by
  rw [List.map_map]
  refine List.map_congr_left fun d _ => ?_
  show (if d.1 = e.1 then e else d).1 = d.1
  split
  · next hd => exact hd.symm
  · rfl

/-- A gathered size of one gives way. -/
theorem Gathered.replace (h : Gathered entries dims) {present : Dim} (hp : (e.1, present) ∈ dims)
    (hone : present.is 1 = true) (he : e.2.is 1 = false) :
    Gathered (entries ++ [e]) (dims.map fun d => if d.1 = e.1 then e else d) := by
  have hpast : ∀ n, (e.1, n) ∈ entries → n.is 1 = true := by
    rcases h.common _ _ hp with ⟨-, hall⟩ | ⟨hother, -⟩
    · exact hall
    · rw [hone] at hother
      cases hother
  refine ⟨by rw [map_fst_replace]; exact h.nodup, fun a => ?_, fun a d hd => ?_⟩
  · have hmet : e.1 ∈ entries.map (·.1) := (h.axes e.1).1 (mem_map_fst.2 ⟨present, hp⟩)
    rw [map_fst_replace, h.axes, List.map_append, List.mem_append, List.map_singleton,
      List.mem_singleton]
    exact ⟨.inl, fun ha => ha.elim id fun ha => ha ▸ hmet⟩
  · obtain ⟨c, hc, hcd⟩ := List.mem_map.1 hd
    split at hcd
    · subst hcd
      refine .inr ⟨he, List.mem_append_right _ (List.mem_singleton_self _), fun n hn => ?_⟩
      rcases List.mem_append.1 hn with hn | hn
      · exact .inl (hpast n hn)
      · obtain rfl : n = d := congrArg Prod.snd (List.mem_singleton.1 hn)
        exact .inr (Dim.beq_refl n)
    · next hne =>
      subst hcd
      exact (h.common a d hc).append_other hne

theorem gathered_broadcastDim (clash : Axis → GraphError) (e : Axis × Dim)
    (h : Gathered entries dims) :
    (∃ dims', broadcastDim clash dims e = .ok dims' ∧ Gathered (entries ++ [e]) dims' ∧
        dims.map (·.1) <+: dims'.map (·.1)) ∨
      broadcastDim clash dims e = .error (clash e.1) ∧ Clash (entries ++ [e]) e.1 := by
  obtain ⟨a, size⟩ := e
  unfold broadcastDim
  dsimp only
  cases hlookup : dims.lookup a with
  | none =>
    refine .inl ⟨_, rfl, h.push fun ha => ?_, ?_⟩
    · obtain ⟨d, hd⟩ := mem_map_fst.1 ha
      simpa using List.lookup_eq_none_iff.1 hlookup _ hd
    · rw [List.map_append]
      exact List.prefix_append ..
  | some present =>
    have hp : (a, present) ∈ dims := Operator.mem_of_lookup hlookup
    dsimp only
    split
    · next hsize =>
      exact .inl ⟨dims, rfl, h.keep hp (Bool.or_eq_true_iff.1 hsize), List.prefix_refl _⟩
    · next hsize =>
      obtain ⟨hne, hsize1⟩ := Bool.or_eq_false_iff.1 (Bool.eq_false_iff.2 hsize)
      split
      · next hone =>
        refine .inl ⟨_, rfl, h.replace hp hone hsize1, ?_⟩
        exact map_fst_replace (e := (a, size)) ▸ List.prefix_refl _
      · next hone =>
        have hone' : present.is 1 = false := Bool.eq_false_iff.2 hone
        refine .inr ⟨rfl, present, size, List.mem_append_left _ ?_,
          List.mem_append_right _ (List.mem_singleton_self _), hone', hsize1, hne⟩
        rcases h.common a present hp with ⟨hc, -⟩ | ⟨-, hmem, -⟩
        · rw [hone'] at hc
          cases hc
        · exact hmem

/-! ## All dimensions -/

/-- Gathering goes on to the end, or stops at an axis with two sizes other than one. -/
theorem gathered_foldlM (clash : Axis → GraphError) (rest : List (Axis × Dim))
    (h : Gathered entries dims) :
    (∃ dims', rest.foldlM (broadcastDim clash) dims = .ok dims' ∧
        Gathered (entries ++ rest) dims' ∧ dims.map (·.1) <+: dims'.map (·.1)) ∨
      ∃ a, rest.foldlM (broadcastDim clash) dims = .error (clash a) ∧ Clash (entries ++ rest) a := by
  induction rest generalizing entries dims with
  | nil => exact .inl ⟨dims, rfl, by rwa [List.append_nil], List.prefix_refl _⟩
  | cons e rest ih =>
    have happend : entries ++ [e] ++ rest = entries ++ e :: rest := List.append_assoc ..
    rw [List.foldlM_cons]
    rcases gathered_broadcastDim clash e h with ⟨dims₁, hd, hg, hpre⟩ | ⟨hd, hc⟩
    · rw [hd, ← happend]
      refine (ih hg).imp_left ?_
      rintro ⟨dims', hok, hg', hpre'⟩
      exact ⟨dims', hok, hg', hpre.trans hpre'⟩
    · refine .inr ⟨e.1, by rw [hd]; rfl, ?_⟩
      obtain ⟨m, n, hm, hn, hne⟩ := hc
      rw [← happend]
      exact ⟨m, n, List.mem_append_left _ hm, List.mem_append_left _ hn, hne⟩

end

theorem gathered_nil : Gathered [] [] := ⟨List.nodup_nil, fun _ => Iff.rfl, by rintro a d ⟨⟩⟩

/-- The first type of highest rank comes first. -/
theorem exists_first_byRank {inputs : List TensorType} (h : inputs ≠ []) :
    ∃ pre x post rest, inputs = pre ++ x :: post ∧ (∀ y ∈ pre, y.rank < x.rank) ∧
      (∀ y ∈ post, y.rank ≤ x.rank) ∧ byRank inputs = x :: rest := by
  have htrans : ∀ x y z : TensorType, decide (y.rank ≤ x.rank) = true →
      decide (z.rank ≤ y.rank) = true → decide (z.rank ≤ x.rank) = true := by
    simp only [decide_eq_true_eq]
    omega
  have htotal : ∀ x y : TensorType, (decide (y.rank ≤ x.rank) || decide (x.rank ≤ y.rank)) = true := by
    simp only [Bool.or_eq_true, decide_eq_true_eq]
    omega
  induction inputs with
  | nil => exact absurd rfl h
  | cons y inputs ih =>
    -- Sorting puts `y` in front of all that do not have a higher rank.
    obtain ⟨l, r, hcons, htail, hl⟩ := List.mergeSort_cons htrans htotal y inputs
    cases l with
    | nil =>
      refine ⟨[], y, inputs, r, rfl, by simp, fun z hz => ?_, hcons⟩
      have hsorted := List.pairwise_mergeSort htrans htotal (y :: inputs)
      rw [hcons] at hsorted
      have hz' : z ∈ r := by
        rw [List.nil_append] at htail
        rw [← htail]
        exact List.mem_mergeSort.2 hz
      exact of_decide_eq_true ((List.pairwise_cons.1 hsorted).1 z hz')
    | cons x l =>
      have hne : inputs ≠ [] := by
        rintro rfl
        simp at htail
      obtain ⟨pre, x', post, rest, hinputs, hpre, hpost, hfirst⟩ := ih hne
      obtain ⟨rfl, -⟩ := List.cons.inj (hfirst.symm.trans htail)
      have hyx : y.rank < x'.rank := by
        have := hl x' (List.mem_cons_self ..)
        simpa using this
      exact ⟨y :: pre, x', post, l ++ y :: r, by rw [hinputs]; rfl,
        List.forall_mem_cons.2 ⟨hyx, hpre⟩, hpost, hcons⟩

/-- The dimensions of the inputs, in the order in which they are gathered, are those of the inputs. -/
theorem mem_byRank_dims {inputs : List TensorType} {e : Axis × Dim} :
    e ∈ (byRank inputs).flatMap dims ↔ e ∈ inputs.flatMap dims := by
  simp only [List.mem_flatMap, byRank, List.mem_mergeSort]

theorem nodup_dims (x : TensorType) : (x.dims.map (·.1)).Nodup := by
  rw [dims, List.map_fst_zip (Nat.le_of_eq x.rank_eq.symm)]
  exact x.order.nodup

theorem mem_flatMap_axes {inputs : List TensorType} {a : Axis} :
    a ∈ (inputs.flatMap dims).map (·.1) ↔ ∃ x ∈ inputs, a ∈ x.order.axes := by
  rw [mem_map_fst]
  constructor
  · rintro ⟨d, hd⟩
    obtain ⟨x, hx, hd⟩ := List.mem_flatMap.1 hd
    exact ⟨x, hx, Operator.mem_axes_of_dims hd⟩
  · rintro ⟨x, hx, ha⟩
    obtain ⟨d, hd⟩ := Operator.exists_dim_of_axis ha
    exact ⟨d, List.mem_flatMap.2 ⟨x, hx, hd⟩⟩

/-- An axis has two sizes other than one only across two inputs. -/
theorem disagree_iff {inputs : List TensorType} :
    Disagree inputs ↔ ∃ a, Clash (inputs.flatMap dims) a := by
  constructor
  · rintro ⟨i, j, x, y, a, m, n, -, hx, hy, hm, hn, hne⟩
    exact ⟨a, m, n, List.mem_flatMap.2 ⟨x, List.mem_of_getElem? hx, hm⟩,
      List.mem_flatMap.2 ⟨y, List.mem_of_getElem? hy, hn⟩, hne⟩
  · rintro ⟨a, m, n, hm, hn, hm1, hn1, hne⟩
    obtain ⟨x, hx, hm⟩ := List.mem_flatMap.1 hm
    obtain ⟨y, hy, hn⟩ := List.mem_flatMap.1 hn
    obtain ⟨i, hi⟩ := List.getElem?_of_mem hx
    obtain ⟨j, hj⟩ := List.getElem?_of_mem hy
    refine ⟨i, j, x, y, a, m, n, ?_, hi, hj, hm, hn, hm1, hn1, hne⟩
    rintro rfl
    -- One input has each axis once.
    obtain rfl := Option.some.inj (hi.symm.trans hj)
    rw [eq_of_mem_nodup x.nodup_dims hm hn, Dim.beq_refl] at hne
    cases hne

/-- The first input is gathered as it is. -/
theorem gathered_first (clash : Axis → GraphError) (x : TensorType) :
    x.dims.foldlM (broadcastDim clash) [] = .ok x.dims ∧ Gathered x.dims x.dims := by
  have hok : x.dims.foldlM (broadcastDim clash) [] = .ok x.dims := foldlM_broadcastDim x.nodup_dims
  refine ⟨hok, ?_⟩
  rcases gathered_foldlM clash x.dims gathered_nil with ⟨dims', hok', hg, -⟩ | ⟨a, he, -⟩
  · obtain rfl := Except.ok.inj (hok.symm.trans hok')
    exact hg
  · rw [hok] at he
    cases he

/-- The dimensions of all inputs are gathered, unless one axis has two sizes other than one. -/
theorem broadcastDims_exact (clash : Axis → GraphError) {inputs : List TensorType}
    (h : inputs ≠ []) :
    (∃ dims', broadcastDims clash inputs = .ok dims' ∧ Gathered (inputs.flatMap dims) dims' ∧
        StartsWithFirst inputs (dims'.map (·.1))) ∨
      ∃ a, broadcastDims clash inputs = .error (clash a) ∧ Clash (inputs.flatMap dims) a := by
  obtain ⟨pre, x, post, rest, hinputs, hpre, hpost, hfirst⟩ := exists_first_byRank h
  have hmem : ∀ e, e ∈ x.dims ++ rest.flatMap dims ↔ e ∈ inputs.flatMap dims := by
    intro e
    rw [← mem_byRank_dims, hfirst, List.flatMap_cons]
  obtain ⟨hx, hself⟩ := gathered_first clash x
  have hfold : broadcastDims clash inputs =
      (rest.flatMap dims).foldlM (broadcastDim clash) x.dims := by
    rw [broadcastDims, hfirst, List.flatMap_cons, List.foldlM_append, hx]
    rfl
  rw [hfold]
  rcases gathered_foldlM clash (rest.flatMap dims) hself with
    ⟨dims', hok, hg, hprefix⟩ | ⟨a, herror, m, n, hm, hn, hne⟩
  · refine .inl ⟨dims', hok, hg.congr hmem, pre, x, post, hinputs, hpre, hpost, ?_⟩
    rwa [dims, List.map_fst_zip (Nat.le_of_eq x.rank_eq.symm)] at hprefix
  · exact .inr ⟨a, herror, m, n, (hmem _).1 hm, (hmem _).1 hn, hne⟩

end TensorType

/-! ## Inference -/

section

variable {α : Type} {f : Pointwise α} {inputs : List TensorType} {s : Supply} {e : GraphError}

theorem raises_except_iff {β ε : Type} {x : Except ε β} {s : Supply} {e : ε} :
    Raises (liftM x : ExceptT ε FreshM β) s e ↔ x = .error e := Iff.rfl

/-- Dimensions that match an order are rejected only because a number is too large. -/
theorem overflow_of_raises_make {shape : List Dim} {order : Order}
    (hrank : shape.length = order.rank) (h : Raises (TensorType.make shape order) s e) :
    ∃ d, e = .overflow d := by
  unfold TensorType.make at h
  rw [dif_pos hrank, raises_bind_iff] at h
  rcases h with h | ⟨size, s₁, -, h⟩
  · exact (raises_fresh_iff.1 h).elim
  · split at h
    · next d _ => exact ⟨d, (Except.error.inj h).symm⟩
    · exact (raises_pure_iff.1 h).elim

/-- The type of a pointwise operator with the right number of inputs. -/
theorem infer_pointwise_eq (harity : inputs.length = f.kind.arity) :
    (Operator.pointwise f).infer inputs = ((do
      let dims ← liftM (TensorType.broadcastDims
        (fun a => .mismatch f.kind (.sizesDisagree a) inputs) inputs)
      let order ← liftM (Order.ofList (dims.map (·.1)))
      TensorType.make (dims.map (·.2)) order) : GraphM TensorType) := by
  unfold Operator.infer
  dsimp only
  rw [if_neg (not_not.2 harity)]
  rfl

/-- A pointwise operator with the right number of inputs gathers their dimensions or rejects them,
and after that only a number can be too large. -/
theorem infer_pointwise_cases (s : Supply) (harity : inputs.length = f.kind.arity) :
    (∃ dims, TensorType.Gathered (inputs.flatMap TensorType.dims) dims ∧
        TensorType.StartsWithFirst inputs (dims.map (·.1)) ∧
        (∀ e, Raises ((Operator.pointwise f).infer inputs) s e → ∃ d, e = .overflow d) ∧
        ∀ t s', Gives ((Operator.pointwise f).infer inputs) s t s' →
          t.order.axes = dims.map (·.1) ∧ t.dims = dims) ∨
      ∃ a, TensorType.Clash (inputs.flatMap TensorType.dims) a ∧
        Raises ((Operator.pointwise f).infer inputs) s
          (.mismatch f.kind (.sizesDisagree a) inputs) := by
  have hne : inputs ≠ [] := by
    rintro rfl
    cases f <;> cases harity
  rcases TensorType.broadcastDims_exact
      (fun a => .mismatch f.kind (.sizesDisagree a) inputs) hne with
    ⟨dims, hok, hg, hfirst⟩ | ⟨a, herror, hc⟩
  · refine .inl ⟨dims, hg, hfirst, fun e h => ?_, fun t s' h => ?_⟩
    · have horder : Order.ofList (dims.map (·.1)) = .ok ⟨dims.map (·.1), hg.nodup⟩ :=
        ofList_ok_iff.2 rfl
      simp only [infer_pointwise_eq harity, raises_bind_iff, raises_except_iff, gives_except_iff,
        hok, reduceCtorEq, false_or, Except.ok.injEq] at h
      obtain ⟨_, _, ⟨rfl, rfl⟩, h⟩ := h
      rcases h with h | ⟨_, _, ⟨h', rfl⟩, h⟩
      · rw [horder] at h
        cases h
      · obtain rfl := Except.ok.inj (horder.symm.trans h')
        refine overflow_of_raises_make ?_ h
        rw [Order.rank, List.length_map, List.length_map]
    · obtain ⟨-, dims', order, hdims, horder, h⟩ := infer_pointwise h
      obtain rfl := Except.ok.inj (hok.symm.trans hdims)
      obtain ⟨hshape, ho, -⟩ := make_gives_iff.1 h
      exact ⟨ho ▸ horder, (List.zip_of_prod (by rw [ho, horder]) hshape.symm).symm⟩
  · refine .inr ⟨a, hc, ?_⟩
    rw [infer_pointwise_eq harity, raises_bind_iff]
    exact .inl herror

/-- The type of a pointwise operator is exactly the broadcast of its inputs. It is rejected if and
only if some axis has two different sizes in two of the inputs, none of them one, and it is an
error of that axis. The type that is inferred lists every axis of the inputs once, the first input
of highest rank leading, and its size along each axis is the common one. -/
theorem infer_broadcast_exact (s : Supply) (harity : inputs.length = f.kind.arity) :
    ((∃ kind reason types, Raises ((Operator.pointwise f).infer inputs) s
        (.mismatch kind reason types)) ↔ TensorType.Disagree inputs) ∧
      ∀ t s', Gives ((Operator.pointwise f).infer inputs) s t s' →
        t.order.axes.Nodup ∧
        (∀ a, a ∈ t.order.axes ↔ ∃ x ∈ inputs, a ∈ x.order.axes) ∧
        TensorType.StartsWithFirst inputs t.order.axes ∧
        ∀ a d, (a, d) ∈ t.dims → TensorType.CommonSize (inputs.flatMap TensorType.dims) a d := by
  rw [TensorType.disagree_iff]
  rcases infer_pointwise_cases s harity with ⟨dims, hg, hfirst, hraises, hgives⟩ | ⟨a, hc, hraises⟩
  · refine ⟨⟨?_, fun ⟨a, hc⟩ => absurd hc (hg.not_clash a)⟩, fun t s' h => ?_⟩
    · rintro ⟨kind, reason, types, h⟩
      obtain ⟨d, hd⟩ := hraises _ h
      cases hd
    · obtain ⟨haxes, hdims⟩ := hgives t s' h
      refine ⟨t.order.nodup, fun a => ?_, haxes ▸ hfirst, fun a d hd => hg.common a d (hdims ▸ hd)⟩
      rw [haxes, hg.axes]
      exact TensorType.mem_flatMap_axes
  · refine ⟨⟨fun _ => ⟨a, hc⟩, fun _ => ⟨_, _, _, hraises⟩⟩, fun t s' h => ?_⟩
    exact absurd ⟨t, s', h⟩ (exists_raises_iff.1 ⟨_, hraises⟩)

/-- A row of this length. -/
def row (n : Nat) : TensorType := ⟨[.known n], ⟨[.channel], by decide⟩, rfl⟩

/-- A column of open length. -/
def column : TensorType := ⟨[.free ⟨0, "n"⟩, .known 1], ⟨[.batch, .channel], by decide⟩, rfl⟩

theorem infer_broadcast_exact_rows :
    (∃ t s', Gives ((Operator.pointwise (Pointwise.add : Pointwise ℚ)).infer [row 3, column]) ⟨1⟩
        t s' ∧ t.order.axes = [.batch, .channel] ∧ t.shape = [.free ⟨0, "n"⟩, .known 3] ∧
      TensorType.CommonSize ([row 3, column].flatMap TensorType.dims) .channel (.known 3)) ∧
    ∃ kind reason types, Raises ((Operator.pointwise (Pointwise.add : Pointwise ℚ)).infer
      [row 3, row 4]) {} (.mismatch kind reason types) := by
  constructor
  · have hsort : TensorType.byRank [row 3, column] = [column, row 3] := by
      simp [TensorType.byRank, List.mergeSort, row, column, TensorType.rank]
    have h : Gives ((Operator.pointwise (Pointwise.add : Pointwise ℚ)).infer [row 3, column]) ⟨1⟩
        ⟨[.free ⟨0, "n"⟩, .known 3], ⟨[.batch, .channel], by decide⟩, rfl⟩ ⟨2⟩ := by
      rw [infer_pointwise_eq rfl, TensorType.broadcastDims, hsort]
      rfl
    exact ⟨_, _, h, rfl, rfl,
      ((infer_broadcast_exact ⟨1⟩ rfl).2 _ _ h).2.2.2 _ _ (List.mem_cons_of_mem _ (.head _))⟩
  · refine (infer_broadcast_exact {} rfl).1.2 ?_
    exact ⟨0, 1, row 3, row 4, .channel, .known 3, .known 4, by decide, rfl, rfl, .head _, .head _,
      rfl, rfl, rfl⟩

end

end TensorCompiler
