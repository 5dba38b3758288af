import TensorCompiler.Pass.Simplify
import TensorCompiler.Proofs.Inference
import TensorCompiler.Proofs.Replacement
import TensorCompiler.Proofs.SelectMeaning
/-!
# The fixed point of simplification

One round of the simplification leaves a graph that a second round does not change, and a pipeline
that has settled does nothing when it runs again. No pass makes work for an earlier one: what is
dropped, folded or expanded leaves the axes that there are, and the arithmetic form of a selection
is neither a reinterpretation nor constant.

Axis unification compares operators to tell whether it changed them. A scalar parameter that does
not equal itself makes it report a change in every round, although nothing changes. So the pipeline
settles if every operator equals itself, or if no hint asks for a renaming.

* `visit_dropReinterpret`, `visit_foldConstant`, `visit_expandSelect`: what a visit comes to.
* `Settled`: a graph on which no pass finds anything to do.
* `settled_of_round`, `Settled.round`: a round arrives at such a graph, and leaves it alone.
* `simplify_settles`: the theorem about the whole pipeline.
-/

namespace TensorCompiler

/-- Inference for a pointwise operator gives the same type from any supply of symbols. -/
theorem infer_pointwise_again {α : Type} {f : Pointwise α} {types : List TensorType}
    {t : TensorType} {s s' : Supply} (h : Gives ((Operator.pointwise f).infer types) s t s')
    (r : Supply) : ∃ r', Gives ((Operator.pointwise f).infer types) r t r' := by
  simp only [Operator.infer, gives_guard_iff, gives_bind_iff, gives_except_iff] at h ⊢
  obtain ⟨hlen, dims, _, ⟨hdims, rfl⟩, order, _, ⟨horder, rfl⟩, h⟩ := h
  obtain ⟨hshape, ho, -⟩ := make_gives_iff.1 h
  obtain ⟨u, r', hu, huo, hus⟩ := make_renewed h (List.forall₂_same.2 fun d _ => .refl d) rfl r
  obtain rfl : u = t := TensorType.ext_of (hus.trans hshape.symm) (huo.trans ho.symm)
  exact ⟨r', hlen, dims, r, ⟨hdims, rfl⟩, order, r, ⟨horder, rfl⟩, hu⟩

/-- The axes of a broadcast type are those of its parts. -/
theorem axes_infer_pointwise {α : Type} {f : Pointwise α} {types : List TensorType}
    {t : TensorType} {s s' : Supply} (h : Gives ((Operator.pointwise f).infer types) s t s')
    {x : Axis} (hx : x ∈ t.order.axes) : ∃ u ∈ types, x ∈ u.order.axes := by
  obtain ⟨-, dims, order, hdims, horder, h⟩ := infer_pointwise h
  rw [(make_gives_iff.1 h).2.1, horder] at hx
  obtain ⟨d, hd, rfl⟩ := List.mem_map.1 hx
  obtain ⟨u, hu, hdu⟩ := mem_of_broadcastDims hdims hd
  exact ⟨u, hu, (List.of_mem_zip hdu).1⟩

namespace Graph

variable {α : Type} [Scalar α] {g h : Graph α} {o : OpId} {a b : VarId} {s s' : Supply} {c : Bool}

/-! ## Visits -/

theorem visit_dropReinterpret (hg : g.Wellformed) (ho : g.Computes o)
    (hedit : (PassM.dropReinterpret o : PassM α Bool).Edits g s c h s') :
    Visit Redundant (fun _ _ => True) g o c h := by
  rcases edits_dropReinterpret hedit with ⟨rfl, rfl, hidle⟩ |
    ⟨rfl, node, order, input, hn, hop, hins, hreplace⟩
  · exact .idle hidle
  · obtain ⟨node₁, x, hn₁, hs, hi⟩ := ho
    obtain rfl := Option.some.inj (hn.symm.trans hn₁)
    have k := prepared_detach hg hn
    have htakes : g.Takes o input := ⟨_, hins, List.mem_singleton_self _⟩
    have hinput := resolve_detach hg hn (resolve_of_mem_inputsOf hins (List.mem_singleton_self _))
    exact .replaced ⟨node, order, input, hn, hop, hins⟩
      (k.replaced hg hn hs hi hinput (.inl htakes) hreplace)
      (wellformed_replaceVariable k.wellformed hreplace) trivial

omit [Scalar α] in
theorem type_of_fold {t folded : Tensor α} {data : Array α} (h : t.fold data = .ok folded) :
    folded.type = t.type := by
  simp only [Tensor.fold, Tensor.withData, bind_ok_iff] at h
  obtain ⟨n, -, h⟩ := h
  split at h
  · cases h
    rfl
  · cases h

theorem visit_foldConstant (hg : g.Wellformed) (ho : g.Computes o)
    (hedit : (PassM.foldConstant o : PassM α Bool).Edits g s c h s') :
    Visit Foldable (fun _ _ => True) g o c h := by
  rcases edits_foldConstant hedit with ⟨rfl, rfl, hidle⟩ |
    ⟨rfl, node, ins, ts, arguments, t, data, folded, hn, hins, hts, harg, ht, hcan, -, hfold,
      hreplace⟩
  · exact .idle hidle
  · obtain ⟨node₁, x, hn₁, hs, hi⟩ := ho
    obtain rfl := Option.some.inj (hn.symm.trans hn₁)
    obtain ⟨p, hslot⟩ := tensor_ok_iff.1 ht
    have k := (prepared_detach hg hn).addVariable (t := folded) fun y hy =>
      ⟨node.output, t, p, hslot, type_of_fold hfold ▸ hy⟩
    have hnew : ((g.detach o node.output).addVariable folded).1.resolve
        ⟨(g.detach o node.output).slots.size⟩ = .ok ⟨(g.detach o node.output).slots.size⟩ :=
      resolve_of_live (slot?_push_new rfl)
    exact .replaced ⟨node, ins, ts, arguments, t, hn, hins, hts, harg, ht, hcan⟩
      (k.replaced hg hn hs hi hnew (.inr (Nat.le_of_eq (size_detach g o _).symm)) hreplace)
      (wellformed_replaceVariable k.wellformed hreplace) trivial

/-- The arithmetic form has axes of the operands only. -/
theorem axes_selectForm {tc tx ty chosen inverse other sum : TensorType} {P : Axis → Prop}
    (form : SelectForm α tc tx ty chosen inverse other sum) (hc : ∀ z ∈ tc.order.axes, P z)
    (hx : ∀ z ∈ tx.order.axes, P z) (hy : ∀ z ∈ ty.order.axes, P z) :
    (∀ z ∈ chosen.order.axes, P z) ∧ (∀ z ∈ inverse.order.axes, P z) ∧
      (∀ z ∈ other.order.axes, P z) ∧ ∀ z ∈ sum.order.axes, P z := by
  have broadcast : ∀ {f : Pointwise α} {types : List TensorType} {t : TensorType},
      (∃ s s', Gives ((Operator.pointwise f).infer types) s t s') →
      (∀ u ∈ types, ∀ z ∈ u.order.axes, P z) → ∀ z ∈ t.order.axes, P z := by
    rintro f types t ⟨_, _, ht⟩ htypes z hz
    obtain ⟨u, hu, hzu⟩ := axes_infer_pointwise ht hz
    exact htypes u hu z hzu
  have hchosen := broadcast form.inferChosen
    (List.forall_mem_cons.2 ⟨hc, List.forall_mem_singleton.2 hx⟩)
  have hinverse := broadcast form.inferInverse (List.forall_mem_singleton.2 hc)
  have hother := broadcast form.inferOther
    (List.forall_mem_cons.2 ⟨hinverse, List.forall_mem_singleton.2 hy⟩)
  exact ⟨hchosen, hinverse, hother, broadcast form.inferSum
    (List.forall_mem_cons.2 ⟨hchosen, List.forall_mem_singleton.2 hother⟩)⟩

omit [Scalar α] in
/-- A selection is no comparison, so its condition is not its own output. -/
theorem Selects.cond_ne {cond x y v : VarId} (k : g.Selects o cond x y) {u : Tensor α}
    (hv : g.slot? v = some (.live u (some o))) : cond ≠ v := by
  rintro rfl
  obtain ⟨p, compared, hp, hcompared, hcmp⟩ := k.compared
  obtain rfl := Option.some.inj ((producer_of_live hv).symm.trans hp)
  obtain ⟨select, hselect, hop⟩ := k.select
  obtain rfl := Option.some.inj (hcompared.symm.trans hselect)
  rw [hop] at hcmp
  cases hcmp

/-- An operator may be added on what is available, and what it computes is available then. -/
theorem Prepared.place {i : Graph α} {node : Node α} (hg : g.Wellformed)
    (hn : g.node? o = some node) (k : Prepared g i o node.output)
    (hsize : g.slots.size ≤ i.slots.size) {op : Operator α} (hop : op.Arithmetic)
    (ins : List VarId) {type : TensorType} (htype : ∀ z ∈ type.order.axes, g.HasAxis z)
    (hins : ∀ v ∈ ins, Available g i o v)
    (hp : ∃ v ∈ ins, v ≠ node.output ∧ (i.producer v).isSome) :
    Prepared g (i.place op ins type) o node.output ∧
      Available g (i.place op ins type) o ⟨i.slots.size⟩ ∧
      ⟨i.slots.size⟩ ≠ node.output ∧ ((i.place op ins type).producer ⟨i.slots.size⟩).isSome := by
  refine ⟨k.placeOp (node?_lt hn) hop htype rfl hins hp,
    ⟨resolve_of_tensor (tensor_place ..), .inr hsize⟩, fun e => ?_, ?_⟩
  · have hlt := (hg.output o node hn).1
    rw [← e] at hlt
    exact absurd hlt (Nat.not_lt.2 hsize)
  · obtain ⟨t, p, _, hslot, -⟩ := produced_place i op ins type
    rw [producer_of_live hslot]
    rfl

/-- The arithmetic form of a selection reads what the selection took and what it is made of. -/
theorem prepared_expanded {node : Node α} {cond x y : VarId} {tc tx ty u : Tensor α}
    {chosen inverse other sum : TensorType} (hg : g.Wellformed) (hn : g.node? o = some node)
    (k : g.Selects o cond x y) (hts : g.tensors [cond, x, y] = .ok [tc, tx, ty])
    (hout : g.slot? node.output = some (.live u (some o)))
    (form : SelectForm α tc.type tx.type ty.type chosen inverse other sum) :
    Prepared g (g.expanded o node.output cond x y chosen inverse other sum) o node.output := by
  obtain ⟨hc, hx, hy⟩ : g.tensor cond = .ok tc ∧ g.tensor x = .ok tx ∧ g.tensor y = .ok ty := by
    simpa using tensors_ok_iff.1 hts
  have axes_of : ∀ {v : VarId} {t : Tensor α}, g.tensor v = .ok t →
      ∀ z ∈ t.type.order.axes, g.HasAxis z := by
    intro v t ht z hz
    obtain ⟨p, hslot⟩ := tensor_ok_iff.1 ht
    exact ⟨v, t, p, hslot, hz⟩
  obtain ⟨hchosen, hinverse, hother, hsum⟩ :=
    axes_selectForm form (axes_of hc) (axes_of hx) (axes_of hy)
  -- The operands are available, and the condition has a producer.
  have taken : ∀ v ∈ [cond, x, y], ∀ i, Extends (g.detach o node.output) i →
      Available g i o v := by
    intro v hv i hext
    obtain ⟨t, ht⟩ := tensor_of_resolve (resolve_of_mem_inputsOf k.inputs hv)
    exact ⟨resolve_of_tensor (hext.tensor (tensor_detach ht)), .inl ⟨_, k.inputs, hv⟩⟩
  have hcond : ∀ i, Extends (g.detach o node.output) i →
      cond ≠ node.output ∧ (i.producer cond).isSome := by
    intro i hext
    have hne := k.cond_ne hout
    obtain ⟨q, hslot⟩ := tensor_ok_iff.1 hc
    obtain ⟨p, -, hp, -⟩ := k.compared
    obtain rfl := (producer_of_live hslot).symm.trans hp
    have hdetached : (g.detach o node.output).slot? cond = some (.live tc (some p)) := by
      rw [slot?_detach, if_neg hne, hslot]
    exact ⟨hne, by rw [producer_of_live (hext.slot _ _ hdetached)]; rfl⟩
  have k₀ := prepared_detach hg hn
  obtain ⟨k₁, v₁, hne₁, hp₁⟩ := k₀.place hg hn (by rw [size_detach]) (.inl rfl) [cond, x]
    hchosen (by simpa using ⟨taken cond (by simp) _ k₀.extension, taken x (by simp) _ k₀.extension⟩)
    ⟨cond, by simp, hcond _ k₀.extension⟩
  obtain ⟨k₂, v₂, hne₂, hp₂⟩ := k₁.place hg hn
    (by rw [size_place, size_detach]; omega) (.inr (.inl rfl)) [cond] hinverse
    (by simpa using taken cond (by simp) _ k₁.extension) ⟨cond, by simp, hcond _ k₁.extension⟩
  obtain ⟨k₃, v₃, -, -⟩ := k₂.place hg hn
    (by rw [size_place, size_place, size_detach]; omega) (.inl rfl) [_, y] hother
    (by simpa using ⟨v₂, taken y (by simp) _ k₂.extension⟩) ⟨_, List.mem_cons_self .., hne₂, hp₂⟩
  have later := (extends_place ((g.detach o node.output).place (.pointwise .mul) [cond, x] chosen)
    .invert [cond] inverse).trans (extends_place _ (.pointwise .mul)
      [⟨((g.detach o node.output).place (.pointwise .mul) [cond, x] chosen).slots.size⟩, y] other)
  obtain ⟨k₄, -⟩ := k₃.place hg hn
    (by rw [size_place, size_place, size_place, size_detach]; omega) (.inr (.inr rfl)) [_, _] hsum
    (by simpa using ⟨v₁.extends later, v₃⟩)
    ⟨_, List.mem_cons_self .., hne₁, by rw [producer_of_extends later v₁.stands]; exact hp₁⟩
  simp only [size_place, size_detach] at k₄
  exact k₄

theorem visit_expandSelect (hg : g.Wellformed) (ho : g.Computes o)
    (hedit : (PassM.expandSelect o : PassM α Bool).Edits g s c h s') :
    Visit Expandable (fun h b => (h.producer b).isSome) g o c h := by
  rcases edits_expandSelect hedit with ⟨rfl, rfl, hidle⟩ |
    ⟨rfl, node, cond, x, y, tc, tx, ty, t, chosen, inverse, other, sum, hn, k, hts, ht, form,
      halike, hreplace⟩
  · exact .idle hidle
  · obtain ⟨node₁, u, hn₁, hs, hi⟩ := ho
    obtain rfl := Option.some.inj (hn.symm.trans hn₁)
    have hprepared := prepared_expanded hg hn k hts hs form
    obtain ⟨v, q, _, hsum, -⟩ :=
      @sum_of_expanded α _ g o node.output cond x y chosen inverse other sum
    have hnew := resolve_of_live hsum
    have hne : (⟨g.slots.size + 3⟩ : VarId) ≠ node.output := by
      intro e
      have hlt := slot?_lt hs
      rw [← e] at hlt
      exact absurd hlt (Nat.not_lt.2 (Nat.le_add_right _ _))
    have hlive := resolve_of_tensor (hprepared.extension.tensor (tensor_detach ht))
    obtain ⟨b, hb, r⟩ := diverts_replaceVariable hprepared.wellformed hlive hreplace
    obtain rfl := Except.ok.inj (hnew.symm.trans hb)
    obtain ⟨v', hv', -⟩ := r.live _ v _ hne hsum
    exact .replaced ⟨node, cond, x, y, tc, tx, ty, t, chosen, inverse, other, sum, hn, k, hts, ht,
        form, halike⟩
      (hprepared.replaced hg hn hs hi hnew (.inr (Nat.le_add_right _ _)) hreplace)
      (wellformed_replaceVariable hprepared.wellformed hreplace)
      (by rw [producer_of_live hv']; rfl)

/-! ## What a replacement leaves -/

section

variable {i j : Graph α} {q : OpId} {n : Node α}

omit [Scalar α] in
/-- Whoever takes the output of an operator reads it. -/
theorem reads_of_mem {ins : List VarId} {x : Tensor α} (hins : i.inputsOf q = .ok ins)
    (ha : i.slot? a = some (.live x (some o))) (hmem : a ∈ ins) : i.Reads q o :=
  ⟨ins, hins, a, hmem, List.not_mem_nil, producer_of_live ha⟩

/-- What did not read the operator reads what it read before. -/
theorem Replaced.inputsOf (hi : i.Wellformed) (r : Replaced i j o a b) (hn : i.node? q = some n)
    (hq : ¬i.Reads q o) {ins : List VarId} (hins : j.inputsOf q = .ok ins) :
    i.inputsOf q = .ok ins := by
  obtain ⟨x, hx⟩ := r.rewired.produced
  obtain ⟨m, hm, -⟩ := inputsOf_ok_iff.1 hins
  obtain ⟨reads, hreads⟩ := inputsOf_ok hi hn
  have hnm : m = n := by
    rcases r.nodes q m hm with hm | ⟨hnew, -⟩
    · exact Option.some.inj (hm.symm.trans hn)
    · exact absurd (node?_lt hn) (Nat.not_lt.2 hnew)
  subst hnm
  have hmap := r.rewired.links.inputsOf hn hm rfl hreads
  obtain rfl := Except.ok.inj (hmap.symm.trans hins)
  rw [hreads]
  refine congrArg Except.ok ((List.map_congr_left fun v hv => ?_).trans (List.map_id _)).symm
  rw [if_neg, id]
  rintro rfl
  exact hq (reads_of_mem hreads hx hv)

/-- An operator that was there before is the same as before. -/
theorem Replaced.node_eq (r : Replaced i j o a b) (hn : i.node? q = some n) {m : Node α}
    (hm : j.node? q = some m) : m = n := by
  rcases r.nodes q m hm with hm | ⟨hnew, -⟩
  · exact Option.some.inj (hm.symm.trans hn)
  · exact absurd (node?_lt hn) (Nat.not_lt.2 hnew)

/-- The types and data of what was there before are the same as before. -/
theorem Replaced.tensor (r : Replaced i j o a b) {v : VarId} {t : Tensor α}
    (ht : j.tensor v = .ok t) (hlt : v.index < i.slots.size) :
    ∃ t', i.tensor v = .ok t' ∧ t.type = t'.type ∧ t.data = t'.data := by
  obtain ⟨p, hslot⟩ := tensor_ok_iff.1 ht
  obtain ⟨t', q, hslot', htype, hdata⟩ := r.back v t p hslot hlt
  exact ⟨t', tensor_ok_iff.2 ⟨q, hslot'⟩, htype, hdata⟩

theorem Replaced.tensors (r : Replaced i j o a b) {ins : List VarId} {ts : List (Tensor α)}
    (hts : j.tensors ins = .ok ts) (hins : ∀ v ∈ ins, v.index < i.slots.size) :
    ∃ ts', i.tensors ins = .ok ts' ∧
      List.Forall₂ (fun t t' => t.type = t'.type ∧ t.data = t'.data) ts ts' := by
  rw [tensors_ok_iff] at hts
  simp only [tensors_ok_iff]
  induction hts with
  | nil => exact ⟨[], .nil, .nil⟩
  | cons ht _ ih =>
    obtain ⟨hv, hvs⟩ := List.forall_mem_cons.1 hins
    obtain ⟨t', ht', hsame⟩ := r.tensor ht hv
    obtain ⟨ts', hts', hall⟩ := ih hvs
    exact ⟨t' :: ts', .cons ht' hts', .cons hsame hall⟩

omit [Scalar α] in
theorem constantArguments?_isSome {ts : List (Tensor α)} :
    (constantArguments? ts).isSome ↔ ∀ t ∈ ts, t.data.isSome := by
  unfold constantArguments?
  induction ts with
  | nil => simp
  | cons t ts ih =>
    rw [List.forall_mem_cons, ← ih, List.mapM_cons]
    cases t.data <;> cases ts.mapM (m := Option) fun t : Tensor α => t.data.map (t.type, ·) <;> simp

/-! ### Redundant reinterpretations -/

omit [Scalar α] in
theorem node_of_redundant (q : OpId) (h : i.Redundant q) : ∃ n, i.node? q = some n := by
  obtain ⟨n, _, _, hn, -⟩ := h
  exact ⟨n, hn⟩

theorem not_redundant_of_arithmetic (hn : i.node? q = some n) (hop : n.op.Arithmetic) :
    ¬i.Redundant q := by
  rintro ⟨m, order, _, hm, hre, -⟩
  obtain rfl := Option.some.inj (hn.symm.trans hm)
  rw [hre] at hop
  rcases hop with hop | hop | hop <;> cases hop

theorem Replaced.redundant (hi : i.Wellformed) (r : Replaced i j o a b) (hn : i.node? q = some n)
    (hq : j.Redundant q) : i.Redundant q := by
  obtain ⟨m, order, input, hm, hop, hins⟩ := hq
  obtain rfl := r.node_eq hn hm
  obtain ⟨reads, hreads⟩ := inputsOf_ok hi hn
  have hmap := r.rewired.links.inputsOf hn hm rfl hreads
  obtain ⟨v, rfl⟩ : ∃ v, reads = [v] := by
    rw [← List.length_eq_one_iff, ← List.length_map (f := _),
      ← Except.ok.inj (hins.symm.trans hmap)]
    rfl
  exact ⟨m, order, v, hn, hop, hreads⟩

/-! ### Constants -/

omit [Scalar α] in
theorem node_of_foldable (q : OpId) (h : i.Foldable q) : ∃ n, i.node? q = some n := by
  obtain ⟨n, _, _, _, _, hn, -⟩ := h
  exact ⟨n, hn⟩

omit [Scalar α] in
/-- What is computed is not constant, so what reads it cannot be folded. -/
theorem not_foldable_of_reads (hi : i.Wellformed) {ins : List VarId} {v : VarId}
    (hins : i.inputsOf q = .ok ins) (hv : v ∈ ins) (hp : (i.producer v).isSome) :
    ¬i.Foldable q := by
  rintro ⟨_, reads, ts, arguments, _, -, hreads, hts, harg, -⟩
  obtain rfl := Except.ok.inj (hins.symm.trans hreads)
  obtain ⟨t, ht, hvt⟩ := exists_of_forall₂_left (tensors_ok_iff.1 hts) hv
  obtain ⟨p, hslot⟩ := tensor_ok_iff.1 hvt
  obtain ⟨c, hc⟩ := Option.isSome_iff_exists.1 hp
  obtain rfl := (producer_of_live hslot).symm.trans hc
  have hsome := constantArguments?_isSome.1 (by rw [harg]; rfl) t ht
  rw [(hi.produced v t c hslot).1] at hsome
  cases hsome

omit [Scalar α] in
theorem not_foldable_of_arithmetic (hi : i.Wellformed) (hn : i.node? q = some n)
    (hreads : ∀ ins, i.inputsOf q = .ok ins → ∃ v ∈ ins, (i.producer v).isSome) :
    ¬i.Foldable q := by
  obtain ⟨ins, hins⟩ := inputsOf_ok hi hn
  obtain ⟨v, hv, hp⟩ := hreads ins hins
  exact not_foldable_of_reads hi hins hv hp

theorem Replaced.foldable (hi : i.Wellformed) (r : Replaced i j o a b) (hn : i.node? q = some n)
    (hq : ¬i.Reads q o) (hfold : j.Foldable q) : i.Foldable q := by
  obtain ⟨m, ins, ts, arguments, t, hm, hins, hts, harg, ht, hcan⟩ := hfold
  obtain rfl := r.node_eq hn hm
  have hins' := r.inputsOf hi hn hq hins
  obtain ⟨ts', hts', hsame⟩ := r.tensors hts fun v hv =>
    lt_of_resolve (resolve_of_mem_inputsOf hins' hv)
  obtain ⟨t', ht', htype, -⟩ := r.tensor ht (hi.output q m hn).1
  have hall := constantArguments?_isSome.1 (Option.isSome_iff_exists.2 ⟨_, harg⟩)
  have hsome : (constantArguments? ts').isSome := by
    refine constantArguments?_isSome.2 fun u hu => ?_
    obtain ⟨u', hu', -, hdata⟩ := exists_of_forall₂_right hsame hu
    exact hdata ▸ hall u' hu'
  obtain ⟨arguments', harg'⟩ := Option.isSome_iff_exists.1 hsome
  exact ⟨m, ins, ts', arguments', t', hn, hins', hts', harg', ht', htype ▸ hcan⟩

/-- Where a computed variable stands in, nothing becomes constant. -/
theorem Replaced.foldable_of_computed (hi : i.Wellformed) (hj : j.Wellformed)
    (r : Replaced i j o a b) (hb : (j.producer b).isSome) (hn : i.node? q = some n)
    (hfold : j.Foldable q) : i.Foldable q := by
  refine r.foldable hi hn (fun hread => ?_) hfold
  obtain ⟨reads, hreads, v, hv, -, hp⟩ := hread
  obtain ⟨x, hx⟩ := r.rewired.produced
  -- What the operator produces is its output, which the other variable stands in for now.
  obtain rfl : v = a := by
    obtain ⟨m, hm, hout⟩ := output_of_producer hi hp
    obtain ⟨-, m', hm', rfl⟩ := hi.produced a x o hx
    obtain rfl := Option.some.inj (hm.symm.trans hm')
    exact Except.ok.inj ((resolve_of_mem_inputsOf hreads hv).symm.trans hout)
  obtain ⟨m, _, _, _, _, hm, -⟩ := id hfold
  obtain rfl := r.node_eq hn hm
  have hmap := r.rewired.links.inputsOf hn hm rfl hreads
  exact not_foldable_of_reads hj hmap (List.mem_map.2 ⟨v, hv, if_pos rfl⟩) hb hfold

/-! ### Selections -/

theorem not_expandable_of_arithmetic (hn : i.node? q = some n) (hop : n.op.Arithmetic) :
    ¬i.Expandable q := by
  rintro ⟨_, _, _, _, _, _, _, _, _, _, _, _, -, k, -⟩
  obtain ⟨m, hm, hselect⟩ := k.select
  obtain rfl := Option.some.inj (hn.symm.trans hm)
  rw [hselect] at hop
  rcases hop with hop | hop | hop <;> cases hop

/-- What a selection took before the replacement, if it did not read the operator. -/
theorem Replaced.selects (hi : i.Wellformed) (r : Replaced i j o a b) (hn : i.node? q = some n)
    (hq : ¬i.Reads q o) {cond x y : VarId} {tc tx ty t : Tensor α} {m : Node α}
    (k : j.Selects q cond x y) (hm : j.node? q = some m)
    (hts : j.tensors [cond, x, y] = .ok [tc, tx, ty]) (ht : j.tensor m.output = .ok t) :
    m = n ∧ i.Selects q cond x y ∧ ∃ tc' tx' ty' t', i.tensors [cond, x, y] = .ok [tc', tx', ty'] ∧
      i.tensor m.output = .ok t' ∧ tc.type = tc'.type ∧ tx.type = tx'.type ∧ ty.type = ty'.type ∧
      t.type = t'.type := by
  obtain rfl := r.node_eq hn hm
  have hins := r.inputsOf hi hn hq k.inputs
  obtain ⟨ts, hts', hsame⟩ := r.tensors hts fun v hv =>
    lt_of_resolve (resolve_of_mem_inputsOf hins hv)
  obtain ⟨t', ht', htype, -⟩ := r.tensor ht (hi.output q m hn).1
  obtain ⟨tc', tx', ty', rfl⟩ : ∃ tc' tx' ty', ts = [tc', tx', ty'] :=
    List.length_eq_three.1 hsame.length_eq.symm
  obtain ⟨⟨hc, -⟩, ⟨hx, -⟩, ⟨hy, -⟩⟩ : (tc.type = tc'.type ∧ tc.data = tc'.data) ∧
      (tx.type = tx'.type ∧ tx.data = tx'.data) ∧ (ty.type = ty'.type ∧ ty.data = ty'.data) := by
    simpa using hsame
  refine ⟨rfl, ⟨?_, hins, ?_⟩, tc', tx', ty', t', hts', ht', hc, hx, hy, htype⟩
  · obtain ⟨m', hm', hop⟩ := k.select
    obtain rfl := Option.some.inj (hm.symm.trans hm')
    exact ⟨_, hn, hop⟩
  · -- The condition is not the output that was replaced, so it has the producer it had.
    obtain ⟨p, compared, hp, hcompared, hcmp⟩ := k.compared
    obtain ⟨u, hu⟩ := r.rewired.produced
    have hca : cond ≠ a := by
      rintro rfl
      exact hq (reads_of_mem hins hu (List.mem_cons_self ..))
    rw [r.producer_eq (resolve_of_mem_inputsOf hins (List.mem_cons_self ..)) hca] at hp
    refine ⟨p, compared, hp, ?_, hcmp⟩
    obtain ⟨m', hm', -⟩ := output_of_producer hi hp
    rw [r.node_eq hm' hcompared, hm']

theorem Replaced.expandable (hi : i.Wellformed) (r : Replaced i j o a b) (hn : i.node? q = some n)
    (hq : ¬i.Reads q o) (hexpand : j.Expandable q) : i.Expandable q := by
  obtain ⟨m, cond, x, y, tc, tx, ty, t, chosen, inverse, other, sum, hm, k, hts, ht, form,
    halike⟩ := hexpand
  obtain ⟨rfl, k', tc', tx', ty', t', hts', ht', hc, hx, hy, htype⟩ :=
    r.selects hi hn hq k hm hts ht
  rw [hc, hx, hy] at form
  exact ⟨m, cond, x, y, tc', tx', ty', t', chosen, inverse, other, sum, hn, k', hts', ht', form,
    htype ▸ halike⟩

/-! ### Axes and parameters -/

/-- Every operator equals itself. -/
def SelfEqual (g : Graph α) : Prop := ∀ o n, g.node? o = some n → n.op.eqv n.op = true

/-- Replacing an operator makes no axis stand for another one. -/
theorem SettledFor.replaced {classes : AxisClasses} {batchFirst : Bool} (hi : i.Wellformed)
    (k : i.SettledFor classes batchFirst) (r : Replaced i j o a b) :
    j.SettledFor classes batchFirst where
  axes x hx := k.axes x (r.axes x hx)
  nodes q n hn := by
    rcases r.nodes q n hn with hn | ⟨-, hop⟩
    · exact k.nodes q n hn
    · rcases hop with hop | hop | hop <;> rw [hop] <;> rfl
  first hb v hv t ht x hx := by
    unfold Graph.outputs at hv
    rw [r.rewired.declaredOutputs, r.rewired.links.resolveAll hi hi.declaredOutputs] at hv
    obtain ⟨u, hu, rfl⟩ := List.mem_map.1 hv
    have hu : u ∈ i.outputs := hu
    obtain ⟨t₀, ht₀⟩ := tensor_of_resolve (resolve_of_mem_outputs hu)
    obtain ⟨t', ht', halike⟩ := r.rewired.links.tensor u t₀ ht₀
    obtain rfl := Except.ok.inj (ht.symm.trans ht')
    rw [halike.axes, List.map_id] at hx
    exact k.first hb u hu t₀ ht₀ x hx

theorem SelfEqual.replaced (hone : Scalar.eqv (Scalar.one : α) Scalar.one = true)
    (hneg : Scalar.eqv (Scalar.negOne : α) Scalar.negOne = true) (k : i.SelfEqual)
    (r : Replaced i j o a b) : j.SelfEqual := by
  intro q n hn
  rcases r.nodes q n hn with hn | ⟨-, hop⟩
  · exact k q n hn
  · rcases hop with hop | hop | hop <;> rw [hop]
    · rfl
    · simp [Operator.invert, Operator.eqv, hone, hneg]
    · rfl

end

/-- Renaming axes makes no operator equal or unequal to itself. -/
theorem eqv_mapAxes {f : Axis → Axis} {op op' : Operator α} (h : op.mapAxes f = .ok op') :
    op'.eqv op' = op.eqv op := by
  cases op with
  | pointwise p => cases h; rfl
  | tile m => cases h; rfl
  | slice x y z => cases h; rfl
  | reinterpret x y =>
    simp only [Operator.mapAxes, bind_ok_iff, pure_ok_iff] at h
    obtain ⟨x', -, y', -, rfl⟩ := h
    simp [Operator.eqv]
  | resize x m y n =>
    cases h
    simp [Operator.eqv]

theorem wellformed_unifyAxes {hints : List (Axis × Axis)} {batchFirst : Bool} (hg : g.Wellformed)
    (hedit : (TensorCompiler.unifyAxes hints batchFirst : Pass (PassM α)).run.Edits g s c h s') :
    h.Wellformed := by
  obtain ⟨batch, -, hunify⟩ := edits_unifyAxes_iff.1 hedit
  obtain ⟨classes, -, -, hrename⟩ := edits_unifyWith_iff.1 hunify
  split at hrename
  · obtain rfl : (g.renameAxes classes).1 = h := congrArg Prod.fst hrename
    exact wellformed_renameAxes hg classes
  · exact hrename.2 ▸ hg

theorem SelfEqual.unifyAxes {hints : List (Axis × Axis)} {batchFirst : Bool} (k : g.SelfEqual)
    (hedit : (TensorCompiler.unifyAxes hints batchFirst : Pass (PassM α)).run.Edits g s c h s') :
    h.SelfEqual := by
  obtain ⟨batch, -, hunify⟩ := edits_unifyAxes_iff.1 hedit
  obtain ⟨classes, -, -, hrename⟩ := edits_unifyWith_iff.1 hunify
  split at hrename
  · obtain rfl : (g.renameAxes classes).1 = h := congrArg Prod.fst hrename
    intro o n hn
    obtain ⟨m, hm, -, -, hop⟩ := node_of_renameAxes (congrArg Prod.snd hrename) hn
    exact (eqv_mapAxes hop).trans (k o m hm)
  · exact hrename.2 ▸ k

/-! ## Rounds -/

variable {config : Config}

/-- A graph on which no pass finds anything to do. -/
structure Settled (config : Config) (g : Graph α) : Prop where
  wellformed : g.Wellformed
  axes : ∃ classes, AxisClasses.ofConstraints config.axisHints = .ok classes ∧
    g.SettledFor classes config.batchFirst
  /-- Axis unification can tell that it changes nothing. -/
  recognized : g.SelfEqual ∨ ∀ p ∈ config.axisHints, p.1 = p.2
  rest : ∀ q, g.Needed q → ¬g.Redundant q ∧ ¬g.Foldable q ∧ ¬g.Expandable q

/-- A round runs the passes one after the other. -/
theorem edits_round
    (hedit : (Pass.sequence (simplifyPasses config) : PassM α Bool).Edits g s c h s') :
    ∃ c₁ g₁ s₁ c₂ g₂ s₂ c₃ g₃ s₃ c₄,
      (unifyAxes config.axisHints config.batchFirst : Pass (PassM α)).run.Edits g s c₁ g₁ s₁ ∧
      (PassM.sweep PassM.dropReinterpret).Edits g₁ s₁ c₂ g₂ s₂ ∧
      (PassM.sweep PassM.foldConstant).Edits g₂ s₂ c₃ g₃ s₃ ∧
      (PassM.sweep PassM.expandSelect).Edits g₃ s₃ c₄ h s' ∧
      c = (c₄ || (c₃ || (c₂ || (c₁ || false)))) := by
  simp only [Pass.sequence, simplifyPasses, PassM.edits_steps_cons_iff, List.foldlM_nil,
    PassM.edits_pure_iff] at hedit
  obtain ⟨c₁, g₁, s₁, h₁, c₂, g₂, s₂, h₂, c₃, g₃, s₃, h₃, c₄, g₄, s₄, h₄, rfl, rfl, rfl⟩ := hedit
  exact ⟨c₁, g₁, s₁, c₂, g₂, s₂, c₃, g₃, s₃, c₄, h₁, h₂, h₃, h₄, rfl⟩

section

variable (hone : Scalar.eqv (Scalar.one : α) Scalar.one = true)
  (hneg : Scalar.eqv (Scalar.negOne : α) Scalar.negOne = true)

include hone hneg

/-- A round arrives at a settled graph. -/
theorem settled_of_round (hg : g.Wellformed) (hfit : g.Typed)
    (hself : g.SelfEqual ∨ ∀ p ∈ config.axisHints, p.1 = p.2)
    (hedit : (Pass.sequence (simplifyPasses config) : PassM α Bool).Edits g s c h s') :
    h.Settled config := by
  obtain ⟨c₁, g₁, s₁, c₂, g₂, s₂, c₃, g₃, s₃, c₄, h₁, h₂, h₃, h₄, -⟩ := edits_round hedit
  obtain ⟨hg₁, -⟩ : g₁.Wellformed ∧ Preserves {} g g₁ := preserves_unifyAxes hg hfit h₁
  obtain ⟨classes, hclasses, hsettled₁⟩ := settledFor_of_unifyAxes h₁
  have hself₁ := hself.imp_left fun k => k.unifyAxes h₁
  -- Whatever is replaced keeps the axes and the parameters.
  let Q : Graph α → Prop := fun i => i.SettledFor classes config.batchFirst ∧
    (i.SelfEqual ∨ ∀ p ∈ config.axisHints, p.1 = p.2)
  have keeps : ∀ {i j : Graph α} {o : OpId} {a b : VarId}, i.Wellformed → Replaced i j o a b →
      Q i → Q j := fun hi r k =>
    ⟨k.1.replaced hi r, k.2.imp_left fun k => k.replaced hone hneg r⟩
  have redundant : ∀ {g i j : Graph α} {o : OpId} {a b : VarId}, i.Wellformed →
      Replaced i j o a b → Spared Redundant g i → Spared Redundant g j := fun hi r k =>
    k.replaced r node_of_redundant (fun _ _ hn hop _ => not_redundant_of_arithmetic hn hop)
      fun _ _ hn => r.redundant hi hn
  have foldable : ∀ {g i j : Graph α} {o : OpId} {a b : VarId}, i.Wellformed → j.Wellformed →
      Replaced i j o a b → (j.producer b).isSome → Spared Foldable g i → Spared Foldable g j :=
    fun hi hj r hb k => k.replaced r node_of_foldable
      (fun _ _ hn _ hreads => not_foldable_of_arithmetic hj hn hreads)
      fun _ _ hn => r.foldable_of_computed hi hj hb hn
  obtain ⟨hg₂, hQ₂, hdropped⟩ := sweep_settles hg₁ (Q := Q) ⟨hsettled₁, hself₁⟩ h₂
    (fun o i s c j s' => visit_dropReinterpret) (fun i j o a b hi _ r _ => keeps hi r)
    (fun i q n _ hn hop _ => not_redundant_of_arithmetic hn hop)
    (fun i j o a b q n hi r hn _ => r.redundant hi hn)
  obtain ⟨hg₃, ⟨hQ₃, hspared₃⟩, hfolded⟩ := sweep_settles hg₂
    (Q := fun i => Q i ∧ Spared Redundant g₂ i)
    ⟨hQ₂, spared_start node_of_redundant fun q hq => (hdropped q hq).2⟩ h₃
    (fun o i s c j s' => visit_foldConstant)
    (fun i j o a b hi _ r _ k => ⟨keeps hi r k.1, redundant hi r k.2⟩)
    (fun i q n hi hn _ hreads => not_foldable_of_arithmetic hi hn hreads)
    (fun i j o a b q n hi r hn hq => r.foldable hi hn hq)
  obtain ⟨hg₄, ⟨⟨hsettled₄, hself₄⟩, hspared₄, hspared₄'⟩, hexpanded⟩ := sweep_settles hg₃
    (Q := fun i => Q i ∧ Spared Redundant g₃ i ∧ Spared Foldable g₃ i)
    ⟨hQ₃, spared_start node_of_redundant fun q hq => hspared₃ q (hfolded q hq).1,
      spared_start node_of_foldable fun q hq => (hfolded q hq).2⟩ h₄
    (fun o i s c j s' => visit_expandSelect)
    (fun i j o a b hi hj r hb k =>
      ⟨keeps hi r k.1, redundant hi r k.2.1, foldable hi hj r hb k.2.2⟩)
    (fun i q n _ hn hop _ => not_expandable_of_arithmetic hn hop)
    (fun i j o a b q n hi r hn hq => r.expandable hi hn hq)
  exact ⟨hg₄, ⟨classes, hclasses, hsettled₄⟩, hself₄, fun q hq =>
    ⟨hspared₄ q (hexpanded q hq).1, hspared₄' q (hexpanded q hq).1, (hexpanded q hq).2⟩⟩

omit hone hneg in
/-- What no replacement spoils, the sweeps of a round do not spoil. -/
theorem sweeps_keep {Q : Graph α → Prop} {g₂ g₃ : Graph α} {s₂ s₃ : Supply} {c₂ c₃ c₄ : Bool}
    (hg : g.Wellformed) (hQ : Q g)
    (hkeeps : ∀ {i j : Graph α} {o : OpId} {a b : VarId}, i.Wellformed → Replaced i j o a b →
      Q i → Q j)
    (h₂ : (PassM.sweep PassM.dropReinterpret).Edits g s c₂ g₂ s₂)
    (h₃ : (PassM.sweep PassM.foldConstant).Edits g₂ s₂ c₃ g₃ s₃)
    (h₄ : (PassM.sweep PassM.expandSelect).Edits g₃ s₃ c₄ h s') : Q h := by
  obtain ⟨hg₂, hQ₂, -⟩ := sweep_settles hg hQ h₂ (fun o i s c j s' => visit_dropReinterpret)
    (fun i j o a b hi _ r _ => hkeeps hi r)
    (fun i q n _ hn hop _ => not_redundant_of_arithmetic hn hop)
    (fun i j o a b q n hi r hn _ => r.redundant hi hn)
  obtain ⟨hg₃, hQ₃, -⟩ := sweep_settles hg₂ hQ₂ h₃ (fun o i s c j s' => visit_foldConstant)
    (fun i j o a b hi _ r _ => hkeeps hi r)
    (fun i q n hi hn _ hreads => not_foldable_of_arithmetic hi hn hreads)
    (fun i j o a b q n hi r hn hq => r.foldable hi hn hq)
  obtain ⟨-, hQ₄, -⟩ := sweep_settles hg₃ hQ₃ h₄ (fun o i s c j s' => visit_expandSelect)
    (fun i j o a b hi _ r _ => hkeeps hi r)
    (fun i q n _ hn hop _ => not_expandable_of_arithmetic hn hop)
    (fun i j o a b q n hi r hn hq => r.expandable hi hn hq)
  exact hQ₄

omit hone hneg in
/-- After a round, all axes stand for themselves as far as the hints go. -/
theorem settledFor_of_round (hg : g.Wellformed)
    (hedit : (Pass.sequence (simplifyPasses config) : PassM α Bool).Edits g s c h s') :
    ∃ classes, AxisClasses.ofConstraints config.axisHints = .ok classes ∧
      h.SettledFor classes config.batchFirst := by
  obtain ⟨c₁, g₁, s₁, c₂, g₂, s₂, c₃, g₃, s₃, c₄, h₁, h₂, h₃, h₄, -⟩ := edits_round hedit
  obtain ⟨classes, hclasses, hsettled⟩ := settledFor_of_unifyAxes h₁
  exact ⟨classes, hclasses, sweeps_keep (Q := (·.SettledFor classes config.batchFirst))
    (wellformed_unifyAxes hg h₁) hsettled (fun hi r k => k.replaced hi r) h₂ h₃ h₄⟩

omit hone hneg in
/-- A round leaves a settled graph alone. -/
theorem Settled.round (k : g.Settled config)
    (hedit : (Pass.sequence (simplifyPasses config) : PassM α Bool).Edits g s c h s') :
    c = false := by
  obtain ⟨c₁, g₁, s₁, c₂, g₂, s₂, c₃, g₃, s₃, c₄, h₁, h₂, h₃, h₄, rfl⟩ := edits_round hedit
  obtain ⟨classes, hclasses, hsettled⟩ := k.axes
  obtain rfl := hsettled.unifyAxes hclasses k.recognized h₁
  obtain ⟨rfl, -⟩ := steady_unifyAxes _ _ _ _ _ _ h₁
  have hg := k.wellformed
  obtain ⟨rfl, rfl⟩ := sweep_idle hg (fun q hq => (k.rest q hq).1) h₂
    fun o s c j s' => visit_dropReinterpret hg
  obtain ⟨rfl, rfl⟩ := sweep_idle hg (fun q hq => (k.rest q hq).2.1) h₃
    fun o s c j s' => visit_foldConstant hg
  obtain ⟨rfl, rfl⟩ := sweep_idle hg (fun q hq => (k.rest q hq).2.2) h₄
    fun o s c j s' => visit_expandSelect hg
  rfl

end

end Graph

/-! ## The pipeline -/

section

variable {α : Type} [Scalar α]

open PassM

omit [Scalar α] in
theorem regular_addPointwise (f : Pointwise α) (ins : List VarId) :
    (addOp (.pointwise f) ins).Regular := by
  refine regular_addOp fun g s b s' hop r => ?_
  obtain ⟨ws, ts, t, hws, hts, ht, hh, hv⟩ := Graph.addOp_gives_iff.1 hop
  obtain ⟨type, hinfer, rfl⟩ := Graph.inferTensor_gives_iff.1 ht
  obtain ⟨r', hr⟩ := infer_pointwise_again hinfer r
  exact ⟨r', Graph.addOp_gives_iff.2 ⟨ws, ts, _, hws, hts,
    Graph.inferTensor_gives_iff.2 ⟨type, hr, rfl⟩, hh, hv⟩⟩

omit [Scalar α] in
theorem regular_dropReinterpret (o : OpId) : (dropReinterpret o : PassM α Bool).Regular := by
  refine regular_graph.bind fun g => (regular_except _).bind fun node => ?_
  split
  · split
    · exact regular_pure _
    · refine (regular_except _).bind fun ins => ?_
      split
      · exact (regular_removeOperator _).bind fun _ => (regular_replaceVariable _ _).bind fun _ =>
          regular_pure _
      · exact regular_pure _
  · exact regular_pure _

theorem regular_foldConstant (o : OpId) : (foldConstant o : PassM α Bool).Regular := by
  refine regular_graph.bind fun g => (regular_except _).bind fun node =>
    (regular_except _).bind fun ins => (regular_except _).bind fun ts => ?_
  split
  · refine (regular_except _).bind fun output => ?_
    split
    · exact regular_pure _
    · exact (regular_except _).bind fun _ => (regular_except _).bind fun _ =>
        (regular_removeOperator _).bind fun _ => (regular_addVariable _).bind fun _ =>
          (regular_replaceVariable _ _).bind fun _ => regular_pure _
  · exact regular_pure _

/-- The type of the arithmetic form does not depend on the supply. -/
theorem inferSelectArithmetic_again {x y z t : TensorType} {s s' : Supply}
    (h : Gives (Operator.inferSelectArithmetic (α := α) x y z) s t s') (r : Supply) :
    ∃ r', Gives (Operator.inferSelectArithmetic (α := α) x y z) r t r' := by
  simp only [Operator.inferSelectArithmetic, gives_bind_iff] at h ⊢
  obtain ⟨chosen, _, h₁, inverse, _, h₂, other, _, h₃, h₄⟩ := h
  obtain ⟨r₁, h₁⟩ := infer_pointwise_again h₁ r
  obtain ⟨r₂, h₂⟩ := infer_pointwise_again h₂ r₁
  obtain ⟨r₃, h₃⟩ := infer_pointwise_again h₃ r₂
  obtain ⟨r₄, h₄⟩ := infer_pointwise_again h₄ r₃
  exact ⟨r₄, chosen, r₁, h₁, inverse, r₂, h₂, other, r₃, h₃, h₄⟩

theorem regular_expandSelect (o : OpId) : (expandSelect o : PassM α Bool).Regular := by
  refine regular_graph.bind fun g => (regular_except _).bind fun node => ?_
  split
  · refine (regular_except _).bind fun ins => ?_
    split
    · split
      · refine (regular_except _).bind fun compared => ?_
        split
        · exact regular_pure _
        · refine (regular_except _).bind fun _ => (regular_except _).bind fun _ =>
            (regular_except _).bind fun _ =>
              (regular_graphM fun _ _ _ => inferSelectArithmetic_again).bind fun _ =>
                (regular_except _).bind fun _ => ?_
          dsimp only
          split
          · exact regular_pure _
          · exact (regular_removeOperator _).bind fun _ => (regular_addPointwise _ _).bind fun _ =>
              (regular_addPointwise _ _).bind fun _ => (regular_addPointwise _ _).bind fun _ =>
                (regular_addPointwise _ _).bind fun _ => (regular_replaceVariable _ _).bind
                  fun _ => regular_pure _
      · exact regular_pure _
    · exact regular_pure _
  · exact regular_pure _

/-- Every pass of a round tells truly that it changed nothing, and fails on graphs only. -/
theorem steady_simplifyPasses (config : Config) :
    ∀ p ∈ (simplifyPasses config : List (Pass (PassM α))), p.run.Steady ∧ p.run.Reports := by
  have sweep : ∀ {step : OpId → PassM α Bool}, (∀ o, (step o).Regular) →
      (∀ o g s h s', (step o).Edits g s false h s' → h = g) →
      (PassM.sweep step).Steady ∧ (PassM.sweep step).Reports := fun hstep hfalse =>
    ⟨.sweep fun o => (hstep o).steady (hfalse o), reports_sweep fun o => (hstep o).reports⟩
  simp only [simplifyPasses, List.forall_mem_cons, List.not_mem_nil, false_imp_iff, implies_true,
    and_true]
  refine ⟨⟨Graph.steady_unifyAxes _ _, Graph.reports_unifyAxes _ _⟩,
    sweep regular_dropReinterpret fun o g s h s' hedit => ?_,
    sweep regular_foldConstant fun o g s h s' hedit => ?_,
    sweep regular_expandSelect fun o g s h s' hedit => ?_⟩
  · obtain ⟨-, rfl, -⟩ | ⟨⟨⟩, -⟩ := Graph.edits_dropReinterpret hedit
    rfl
  · obtain ⟨-, rfl, -⟩ | ⟨⟨⟩, -⟩ := Graph.edits_foldConstant hedit
    rfl
  · obtain ⟨-, rfl, -⟩ | ⟨⟨⟩, -⟩ := Graph.edits_expandSelect hedit
    rfl

/-- The pipeline settles on every built graph: with two rounds or more it never gives up, if every
operator equals itself or no hint merges different axes. Whatever it arrives at, it leaves alone
when it runs again. -/
theorem simplify_settles {s : Supply} {g : Graph α} {config : Config} (hb : Built s g) :
    (2 ≤ config.maxIterations → Scalar.eqv (Scalar.one : α) Scalar.one = true →
      Scalar.eqv (Scalar.negOne : α) Scalar.negOne = true →
      (g.SelfEqual ∨ ∀ p ∈ config.axisHints, p.1 = p.2) →
      ∀ r name limit, ¬(simplify config).run.Fails g r (.fixedPointNotReached name limit)) ∧
    ∀ r c h r', (simplify config).run.Edits g r c h r' →
      ∀ q, ∃ q', (simplify config).run.Edits h q false h q' := by
  obtain ⟨ds, hsession⟩ := hb
  refine ⟨fun hlimit hone hneg hself r name limit => ?_, fun r c h r' hedit q => ?_⟩
  · refine Pass.group_settles (fun p hp => (steady_simplifyPasses config p hp).2) hlimit ?_
    intro g₁ s₁ c g₂ s₂ d hfirst hsecond
    exact (Graph.settled_of_round hone hneg hsession.wellformed hsession.typed hself
      hfirst).round hsecond
  · exact Pass.group_steady (fun p hp => (steady_simplifyPasses config p hp).1) hedit q

end

/-- A pass that drops the only operator, and then finds nothing to do. -/
theorem simplify_settles_passThrough :
    (∀ r name limit, ¬(simplify {}).run.Fails Graph.passThrough r
      (.fixedPointNotReached name limit)) ∧
    ∃ h, (simplify {}).run.Edits Graph.passThrough {} true h {} ∧
      ∃ q', (simplify {}).run.Edits h {} false h q' := by
  have hself : Graph.passThrough.SelfEqual := by
    intro o n hn
    have hmem : some n ∈ Graph.passThrough.nodes :=
      Array.mem_of_getElem? (Option.join_eq_some_iff.1 hn)
    simp only [Graph.passThrough, Graph.passedOn, List.mem_toArray, List.mem_singleton,
      Option.some.injEq] at hmem
    rw [hmem]
    rfl
  obtain ⟨hnever, hagain⟩ :=
    @simplify_settles ℚ _ {} Graph.passThrough {} Graph.built_passThrough
  exact ⟨hnever (by decide) rfl rfl (.inl hself), _, rfl, hagain {} true _ {} rfl {}⟩

/-- One input with an open axis, and its product with a value that is no number. -/
def scaledByNothing (outputs : List VarId) (marks : List Mark) : Graph (Option ℚ) :=
  let type : TensorType := ⟨[.known 1], ⟨[.free 16], List.nodup_singleton _⟩, by decide⟩
  { slots := #[.live { type, marks := [.input] } none,
      .live { type, marks := .tensorwise (.free 16) :: marks } (some ⟨0⟩)]
    nodes := #[some ⟨.pointwise (.affine none (some 0)), [⟨0⟩], ⟨1⟩⟩]
    declaredInputs := [⟨0⟩]
    declaredOutputs := outputs }

theorem built_scaledByNothing : Built {} (scaledByNothing [⟨1⟩] [.output]) := by
  have made : (⟨⟨[.known 1], ⟨[.free 16], List.nodup_singleton _⟩, rfl⟩, [], none⟩ :
      Tensor (Option ℚ)).MadeFrom [.known 1] {} {} :=
    ⟨fun _ hd => hd, rfl, (fun _ hx => by cases hx)⟩
  have input : Session true {} [.known 1] _ := .addInput (.word (.empty {}) (by decide)) made
  have step : Gives ((({} : Graph (Option ℚ)).addInput
      ⟨⟨[.known 1], ⟨[.free 16], List.nodup_singleton _⟩, rfl⟩, [], none⟩).1.addOp
      (.pointwise (.affine none (some 0))) [⟨0⟩]) {} (scaledByNothing [] [], ⟨1⟩) {} := by
    unfold Gives
    cbv
  exact ⟨_, .markOutput (v := ⟨1⟩) (.addOp input step) rfl⟩

/-- The open axis is the batch axis, and two rounds are allowed. -/
def openBatch : Config := { axisHints := [(.free 16, .batch)], maxIterations := 2 }

theorem simplify_scaledByNothing :
    Built {} (scaledByNothing [⟨1⟩] [.output]) ∧ 2 ≤ openBatch.maxIterations ∧
      (simplify openBatch).run.Fails (scaledByNothing [⟨1⟩] [.output]) {}
        (.fixedPointNotReached "simplify" 2) :=
  ⟨built_scaledByNothing, by decide, rfl⟩

end TensorCompiler
