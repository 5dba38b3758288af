import TensorCompiler.Proofs.Elements
import TensorCompiler.Proofs.Machines
import TensorCompiler.Proofs.ValueSizes
/-!
# Values of operators

The value of a computed variable, in terms of the values of the operands: all that the kernel of
the operator has to get right. Sizes are known, and if there is an element to compute, then every
operand has elements as well.

* `product_of_checked`: the size of a checked shape of known dimensions is known.
* `Operator.Takes`: an operator takes the elements of its output from its inputs.
* `Graph.ComputedFrom`: an operator, its operands, their values and the value of the output.
* `Graph.computedFrom_of_hasValue`: every value of a computed variable comes about like this.
* `Machine.serves_of_built`: a machine serves a graph if its kernels compute such values.
-/

namespace TensorCompiler

open Dim

/-- The product of known dimensions is known, since no shape in a graph has overflowed. -/
theorem product_of_checked {ns : List Nat} (h : Checked (ns.map known)) {d : Dim} {s s' : Supply}
    (hd : Makes (Dim.product (ns.map known)) s d s') : d = known ns.prod := by
  suffices gen : ∀ pre rest : List Nat, pre ++ rest = ns → ∀ s,
      Makes ((rest.map known).foldlM (combine .mul) (known pre.prod)) s d s' →
        d = known ns.prod from gen [] ns rfl s hd
  intro pre rest
  induction rest generalizing pre with
  | nil =>
    rintro rfl s hd
    obtain ⟨rfl, -⟩ := makes_pure_iff.1 hd
    rw [List.append_nil]
  | cons n rest ih =>
    intro heq s hd
    rw [List.map_cons, List.foldlM_cons, makes_bind_iff] at hd
    obtain ⟨acc, s₁, hacc, hd⟩ := hd
    have hprefix : (pre ++ [n]).map known <+: ns.map known :=
      ⟨rest.map known, by rw [← List.map_append, List.append_assoc, ← heq]; rfl⟩
    have hprod : (pre ++ [n]).prod = pre.prod * n := by simp
    have hlt : pre.prod * n < wordLimit := hprod ▸ h.leading _ hprefix
    have happly : Arith.mul.apply pre.prod n = some (pre.prod * n) := if_pos hlt
    obtain ⟨rfl, rfl⟩ := combine_known happly hacc
    exact ih (pre ++ [n]) (by simpa using heq) s (hprod ▸ hd)

namespace TensorType

variable {t : TensorType}

/-- Known sizes with an element are positive. -/
theorem positiveAt_of_concrete (h : t.isConcrete = true) (hpos : 0 < t.sizes.prod) :
    t.PositiveAt known? := by
  rw [PositiveAt, shape_eq_of_isConcrete h]
  intro d hd
  obtain ⟨n, hn, rfl⟩ := List.mem_map.1 hd
  exact ⟨n, rfl, List.prod_pos_iff_forall_pos_nat.1 hpos n hn⟩

/-- Positive known sizes have known strides and a known product. -/
theorem all_known (hconcrete : t.isConcrete = true) (hchecked : Checked t.shape)
    (hpos : t.PositiveAt known?) : t.All fun d => ∃ n, d = known n := by
  have hshape := shape_eq_of_isConcrete hconcrete
  have hmem : ∀ {ns : List Nat}, ∀ d ∈ ns.map known, ∃ n, d = known n := fun d hd =>
    (List.mem_map.1 hd).imp fun n hn => hn.2.symm
  constructor
  · rw [hshape]
    exact hmem
  · intro s ds s' hds
    rw [strides, hshape] at hds
    rw [strides_known (wordStrides_of_pos hpos.pos (hchecked.sized _ hshape)) hds]
    exact hmem
  · intro s d s' hd
    rw [size, hshape] at hd
    exact ⟨_, product_of_checked (hshape ▸ hchecked) hd⟩

theorem sizes_prod_of_concreteSize {n : Nat} (h : t.concreteSize = .ok n) : n = t.sizes.prod := by
  obtain ⟨ns, hns, rfl⟩ := concreteSize_ok_iff.1 h
  rw [sizes_eq hns]

end TensorType

namespace Operator

variable {α : Type} [Scalar α] {op : Operator α} {y : TensorType} {d : Array α}

/-- An operator takes the elements of its output from its inputs, which have elements if there is
one to compute. -/
structure Takes (op : Operator α) (inputs : List TensorType) (ds : List (Array α)) (y : TensorType)
    (d : Array α) : Prop where
  determines : op.Determines (inputs.zip ds) y d
  positive : 0 < d.size → ∀ x ∈ inputs, 0 < x.sizes.prod
  reads : 0 < d.size → ∀ x ∈ inputs, op.ReadsFrom known? x y

theorem takes_of_pointwise {f : Pointwise α} {inputs : List TensorType} {ds : List (Array α)}
    (hfits : (pointwise f).Fits inputs y)
    (heval : (pointwise f).evaluate (inputs.zip ds) y = .ok d) (hy : y.isConcrete = true)
    (hsized : ∀ x ∈ inputs, Sized x.shape) (hsize : d.size = y.sizes.prod) :
    (pointwise f).Takes inputs ds y d where
  determines := determines_of_pointwise heval hy fun e he =>
    have hx := (List.of_mem_zip he).1
    ⟨hfits.2 e.1 hx, hsized e.1 hx⟩
  positive hpos x hx :=
    have hbroadcasts : x.Broadcasts y := hfits.2 x hx
    hbroadcasts.pos hy (hsize ▸ hpos)
  reads _ x hx :=
    have hbroadcasts : x.Broadcasts y := hfits.2 x hx
    hbroadcasts.at_known

theorem takes_of_movement (hop : ∀ f, op ≠ .pointwise f) {x : TensorType} {e : Array α}
    {xs ys : List Nat} (hfits : op.Fits [x] y) (hmoves : op.Moves x.order.axes xs ys)
    (hx : x.shape = xs.map known) (hy : y.shape = ys.map known) (hsized : xs.prod < wordLimit)
    (heval : op.evaluate ([x].zip [e]) y = .ok d) (hsize : d.size = y.sizes.prod) :
    op.Takes [x] [e] y d where
  determines := determines_of_movement hop hfits hmoves hx hy hsized heval
    (by rw [hsize, TensorType.sizes_eq hy])
  positive hpos := by
    rw [hsize, TensorType.sizes_eq hy] at hpos
    rw [List.forall_mem_singleton, TensorType.sizes_eq hx]
    exact List.prod_pos_iff_forall_pos_nat.2
      (inputs_pos_of_movement hop hfits hmoves hx hy heval (pos_of_lt_prod hpos))
  reads _ := by
    rw [List.forall_mem_singleton, readsFrom_movement hop]
    show op.Moves x.order.axes x.sizes y.sizes
    rw [TensorType.sizes_eq hx, TensorType.sizes_eq hy]
    exact hmoves

end Operator

namespace Graph

variable {α : Type} [Scalar α] {g : Graph α} {fed : Values α}

/-- The value of an output comes from the values of the operands. -/
structure ComputedFrom (g : Graph α) (fed : Values α) (o : OpId) (n : Node α) (y : Operand)
    (xs : List Operand) (ds : List (Array α)) (d : Array α) : Prop where
  output : ∃ t, g.tensor n.output = .ok t ∧ y = ⟨n.output, t.type⟩
  inputs : ∃ ins, g.inputsOf o = .ok ins ∧
    List.Forall₂ (fun v x => ∃ t, g.tensor v = .ok t ∧ x = ⟨v, t.type⟩) ins xs
  length : ds.length = xs.length
  fits : n.op.Fits (xs.map (·.type)) y.type
  concrete : ∀ x ∈ y :: xs, x.type.isConcrete = true
  checked : ∀ x ∈ y :: xs, Checked x.type.shape
  values : ∀ p ∈ xs.zip ds, g.HasValue fed p.1.var p.2
  size : d.size = y.type.sizes.prod
  determines : n.op.Determines ((xs.map (·.type)).zip ds) y.type d
  positive : 0 < d.size → ∀ t ∈ y.type :: xs.map (·.type), t.PositiveAt known?
  reads : 0 < d.size → ∀ x ∈ xs, n.op.ReadsFrom known? x.type y.type

/-- The operands that the handler of an operator sees. -/
theorem ComputedFrom.ready {τ : Type} {c : KernelContext α τ} {y : Operand} {xs : List Operand}
    {ds : List (Array α)} {d : Array α} (h : c.graph.ComputedFrom fed c.id c.node y xs ds d) :
    c.Ready (fun _ => True) y xs := by
  obtain ⟨t, ht, rfl⟩ := h.output
  obtain ⟨ins, hins, hxs⟩ := h.inputs
  exact {
    output := output_ok_iff.2 ⟨_, t, resolve_of_tensor ht, ht, rfl⟩
    inputs := inputs_ok_iff.2 ⟨ins, hins, hxs⟩
    outputPlaced := trivial
    inputsPlaced := fun _ _ => trivial
    fits := h.fits }

/-- If there is an element, then sizes and strides of all operands are known. -/
theorem ComputedFrom.all_known {o : OpId} {n : Node α} {y : Operand} {xs : List Operand}
    {ds : List (Array α)} {d : Array α} (h : g.ComputedFrom fed o n y xs ds d) (hpos : 0 < d.size) :
    ∀ t ∈ y.type :: xs.map (·.type), t.All fun d => ∃ n, d = known n := by
  intro t ht
  have htpos := h.positive hpos t ht
  obtain ⟨x, hx, rfl⟩ := List.mem_map.1 (List.map_cons .. ▸ ht : t ∈ (y :: xs).map (·.type))
  exact TensorType.all_known (h.concrete x hx) (h.checked x hx) htpos

/-- A variable that has a value has a known size, and its shape has passed the check. -/
theorem HasValue.concrete_and_checked {s : Supply} {dims : List Dim} {v : VarId} {t : Tensor α}
    {e : Array α} (he : g.HasValue fed v e) (hsession : Session true s dims g)
    {feeds : List (VarId × Array α)} (hfeed : feeds.foldlM g.feed {} = .ok fed)
    (ht : g.tensor v = .ok t) :
    t.type.concreteSize = .ok e.size ∧ t.type.isConcrete = true ∧ Checked t.type.shape := by
  obtain ⟨t', ht', hsize⟩ := he.concreteSize ⟨dims, hsession.relax⟩ hfeed
  obtain rfl := Except.ok.inj (ht.symm.trans ht')
  obtain ⟨q, hslot⟩ := tensor_ok_iff.1 ht
  exact ⟨hsize, TensorType.isConcrete_of_concreteSize hsize, hsession.checked _ _ _ hslot⟩

/-- An operator of a built graph takes the elements of its output from its inputs. -/
theorem takes_of_session {s : Supply} {dims : List Dim} (h : Session true s dims g) {o : OpId}
    {n : Node α} {ins : List VarId} {ts : List (Tensor α)} {ds : List (Array α)} {t : Tensor α}
    {p : Option OpId} {d : Array α} (hn : g.node? o = some n) (hins : g.inputsOf o = .ok ins)
    (hts : g.tensors ins = .ok ts) (hslot : g.slot? n.output = some (.live t p))
    (heval : n.op.evaluate ((ts.map (·.type)).zip ds) t.type = .ok d)
    (hlen : ds.length = (ts.map (·.type)).length) (hconcrete : t.type.isConcrete = true)
    (hsize : d.size = t.type.sizes.prod)
    (hall : ∀ x ∈ ts.map (·.type), x.isConcrete = true ∧ Checked x.shape) :
    n.op.Takes (ts.map (·.type)) ds t.type d := by
  have hfits := h.typed o n ins ts t p hn hins hts hslot
  by_cases hop : ∃ f, n.op = .pointwise f
  · obtain ⟨f, hop⟩ := hop
    rw [hop] at hfits heval ⊢
    exact Operator.takes_of_pointwise hfits heval hconcrete (fun x hx => (hall x hx).2.sized) hsize
  · rw [not_exists] at hop
    obtain ⟨type, s', hinfer, -, halike⟩ := h.inferred.again hn hins hts hslot s
    obtain ⟨x, hx⟩ := Operator.sole_of_infer hop hinfer
    rw [hx] at hfits heval hinfer hall hlen ⊢
    obtain ⟨e, rfl⟩ := List.length_eq_one_iff.1 hlen
    obtain ⟨hxconcrete, hchecked⟩ := hall x (List.mem_singleton_self x)
    have hxs := TensorType.shape_eq_of_isConcrete hxconcrete
    have hys := TensorType.shape_eq_of_isConcrete hconcrete
    rw [hys] at halike
    have hmoves := Operator.moves_of_infer hop hinfer hxs (eq_known_of_alike halike)
    exact Operator.takes_of_movement hop hfits hmoves hxs hys (hchecked.sized _ hxs) heval hsize

/-- The value of a variable that an operator computes comes from the values of its operands. -/
theorem computedFrom_of_hasValue {s : Supply} (hb : Built s g)
    {feeds : List (VarId × Array α)} (hfeed : feeds.foldlM g.feed {} = .ok fed) {o : OpId}
    {n : Node α} {t : Tensor α} {d : Array α} (hn : g.node? o = some n)
    (hslot : g.slot? n.output = some (.live t (some o))) (hni : n.output ∉ g.inputs)
    (hd : g.HasValue fed n.output d) : ∃ y xs ds, g.ComputedFrom fed o n y xs ds d := by
  obtain ⟨dims, hsession⟩ := hb
  have hp : g.producer n.output = some o := producer_some_iff.2 ⟨_, t, resolve_of_live hslot, hslot⟩
  have ht : g.tensor n.output = .ok t := tensor_ok_iff.2 ⟨_, hslot⟩
  obtain ⟨hsize, hyconcrete, hychecked⟩ := hd.concrete_and_checked hsession hfeed ht
  have hysize := TensorType.sizes_prod_of_concreteSize hsize
  cases hd with
  | leaf _ hleaf _ =>
    rcases hleaf with h | h
    · exact absurd h hni
    · cases h.symm.trans hp
  | @computed _ _ _ ins ts _ ds _ _ hp' hn' hins hts ht' hlen hvalues heval =>
    obtain rfl := Option.some.inj (hp.symm.trans hp')
    obtain rfl := Option.some.inj (hn.symm.trans hn')
    obtain rfl := Except.ok.inj (ht.symm.trans ht')
    obtain ⟨xs, hxs, hvars, htypes⟩ := KernelContext.exists_operands (mapM_ok_iff.1 hts)
    have hlength : ds.length = xs.length := by rw [← hlen, ← hvars, List.length_map]
    have hxvalue : ∀ p ∈ xs.zip ds, g.HasValue fed p.1.var p.2 := by
      intro p hp
      refine hvalues (p.1.var, p.2) ?_
      rw [← hvars, List.zip_map_left]
      exact List.mem_map.2 ⟨p, hp, rfl⟩
    have hxtype : ∀ x ∈ xs, x.type.isConcrete = true ∧ Checked x.type.shape := by
      intro x hx
      obtain ⟨e, he⟩ := exists_mem_zip hlength.symm hx
      obtain ⟨v, -, u, hu, rfl⟩ := exists_of_forall₂_right hxs hx
      exact ((hxvalue _ he).concrete_and_checked hsession hfeed hu).2
    have htakes := takes_of_session hsession hn hins hts hslot heval
      (by rw [hlength, ← htypes, List.length_map]) hyconcrete hysize
      (htypes ▸ List.forall_mem_map.2 hxtype)
    rw [← htypes] at htakes
    exact ⟨⟨n.output, t.type⟩, xs, ds, {
      output := ⟨t, ht, rfl⟩
      inputs := ⟨ins, hins, hxs⟩
      length := hlength
      fits := htypes ▸ hsession.typed o n ins ts t _ hn hins hts hslot
      concrete := List.forall_mem_cons.2 ⟨hyconcrete, fun x hx => (hxtype x hx).1⟩
      checked := List.forall_mem_cons.2 ⟨hychecked, fun x hx => (hxtype x hx).2⟩
      values := hxvalue
      size := hysize
      determines := htakes.determines
      positive := fun hpos => List.forall_mem_cons.2
        ⟨TensorType.positiveAt_of_concrete hyconcrete (hysize ▸ hpos), List.forall_mem_map.2
          fun x hx => TensorType.positiveAt_of_concrete (hxtype x hx).1
            (htakes.positive hpos _ (List.mem_map_of_mem hx))⟩
      reads := fun hpos x hx => htakes.reads hpos _ (List.mem_map_of_mem hx) }⟩

end Graph

/-- A machine serves a built graph if it takes feeds, and if the kernel of an operator, run where
the operands are held, leaves the value that comes from theirs. -/
theorem Machine.serves_of_built {α σ : Type} [Scalar α] {m : Machine σ α} {g : Graph α}
    {fed : Values α} {Valid : σ → Prop} {R : OpId → Kernel α → Prop} {s : Supply} (hb : Built s g)
    (hbound : g.Bound) {feeds : List (VarId × Array α)} (hfeed : feeds.foldlM g.feed {} = .ok fed)
    (feed : m.TakesFeeds g Valid)
    (step : ∀ done o later k n y xs ds d st, g.topologicalOrder = .ok (done ++ o :: later) →
      R o k → g.node? o = some n → g.ComputedFrom fed o n y xs ds d → Valid st →
      (∀ p ∈ xs.zip ds, g.HeldAt done (o :: later) p.1.var ∧
        m.contents? st p.1.var = some p.2) →
      (∃ st', m.runs k st st') ∧ ∀ st', m.runs k st st' → Valid st' ∧
        m.contents? st' n.output = some d ∧ ∀ w, g.HeldAt done (o :: later) w → w ≠ n.output →
          m.contents? st' w = m.contents? st w) : m.Serves g fed Valid R := by
  have hwf := hb.reached.wellformed
  refine ⟨feed, fun done o later k n d st hops hk hn hd hvalid hholds => ?_⟩
  obtain ⟨n', t, hn', hslot, hni⟩ :=
    Graph.output_of_mem_topologicalOrder hwf hops (List.mem_append_right _ (List.mem_cons_self ..))
  obtain rfl := Option.some.inj (hn.symm.trans hn')
  obtain ⟨y, xs, ds, hcomputed⟩ := Graph.computedFrom_of_hasValue hb hfeed hn hslot hni hd
  refine step done o later k n y xs ds d st hops hk hn hcomputed hvalid fun p hp => ?_
  obtain ⟨ins, hins, hxs⟩ := hcomputed.inputs
  obtain ⟨v, hv, u, -, hvar⟩ := exists_of_forall₂_right hxs (List.of_mem_zip hp).1
  have hheld : g.HeldAt done (o :: later) p.1.var := by
    rw [hvar]
    exact Graph.heldAt_operand hwf hbound hops hins hv
  exact ⟨hheld, hholds _ _ hheld (hcomputed.values p hp)⟩

end TensorCompiler
