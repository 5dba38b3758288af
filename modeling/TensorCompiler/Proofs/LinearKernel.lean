import TensorCompiler.Proofs.Generation
import TensorCompiler.Proofs.Instantiation
import TensorCompiler.Proofs.MovementKernel
import TensorCompiler.Proofs.PointwiseKernel
/-!
# Loops over linear memory

A kernel over linear memory walks the elements of its output in row-major order. However its tables
are read as numbers, it reads every operand where its operator takes the element from, and writes
the elements one behind the other.

* `Operator.sourceAt`: where an operator takes an element from; `sourceAt_lt`.
* `Linear.LoopFor`: what the loop of a kernel does, in terms of its operator.
* `Linear.loop_of_provides`: the bindings of a kernel spell out this loop.
* `Linear.FilledFor.forall_patches`: what the patches of a kernel are for.
-/

namespace TensorCompiler

open Dim

/-! ## Where operators read -/

section

variable {val : Dim → Option Nat}

/-- The numbers that the dimensions of a type are read as. -/
def TensorType.sizesAt (val : Dim → Option Nat) (t : TensorType) : List Nat := t.shape.filterMap val

/-- All dimensions are read as positive numbers. -/
def TensorType.PositiveAt (val : Dim → Option Nat) (t : TensorType) : Prop :=
  ∀ d ∈ t.shape, ∃ n, val d = some n ∧ 0 < n

theorem TensorType.PositiveAt.readAs {t : TensorType} (h : t.PositiveAt val) :
    ReadAs val t.shape (t.sizesAt val) :=
  readAs_filterMap fun d hd => (h d hd).imp fun _ hn => hn.1

theorem TensorType.PositiveAt.pos {t : TensorType} (h : t.PositiveAt val) :
    ∀ n ∈ t.sizesAt val, 0 < n := by
  intro n hn
  obtain ⟨d, hd, hread⟩ := List.mem_filterMap.1 hn
  obtain ⟨m, hm, hpos⟩ := h d hd
  cases hm.symm.trans hread
  exact hpos

namespace Operator

variable {α : Type} {op : Operator α} {x y : TensorType}

/-- The position in the data of an input at which an operator takes the element for a position of
its output. -/
def sourceAt (val : Dim → Option Nat) (op : Operator α) (x y : TensorType) (i : Nat) : Nat :=
  match op with
  | pointwise _ => offset x.order.axes (x.sizesAt val) (coordinate y.order.axes (y.sizesAt val) i)
  | op => op.sourceIndexOf (x.sizesAt val) (y.sizesAt val) i

/-- The input has what the operator takes for its output. -/
def ReadsFrom (val : Dim → Option Nat) (op : Operator α) (x y : TensorType) : Prop :=
  match op with
  | pointwise _ => x.BroadcastsAt val y
  | op => op.Moves x.order.axes (x.sizesAt val) (y.sizesAt val)

theorem sourceAt_movement (hop : ∀ f, op ≠ .pointwise f) (i : Nat) :
    op.sourceAt val x y i = op.sourceIndexOf (x.sizesAt val) (y.sizesAt val) i := by
  cases op with
  | pointwise f => exact absurd rfl (hop f)
  | _ => rfl

theorem readsFrom_movement (hop : ∀ f, op ≠ .pointwise f) :
    op.ReadsFrom val x y ↔ op.Moves x.order.axes (x.sizesAt val) (y.sizesAt val) := by
  cases op with
  | pointwise f => exact absurd rfl (hop f)
  | _ => rfl

/-- Operators take elements that are there. -/
theorem sourceAt_lt (h : op.ReadsFrom val x y) (hx : x.PositiveAt val) (hy : y.PositiveAt val)
    (i : Nat) : op.sourceAt val x y i < (x.sizesAt val).prod := by
  by_cases hop : ∃ f, op = .pointwise f
  · obtain ⟨f, rfl⟩ := hop
    exact offset_lt _ (List.prod_pos_iff_forall_pos_nat.2 hx.pos)
  · rw [not_exists] at hop
    rw [sourceAt_movement hop]
    exact ((readsFrom_movement hop).1 h).sourceIndexOf_lt hx.pos hy.pos i

end Operator

end

section

variable {α τ : Type} {c : KernelContext α τ} {placed : VarId → Prop} {y : Operand}
  {xs : List Operand} {val : Dim → Option Nat}

/-- The inputs of an operator, as tensors. -/
theorem KernelContext.tensors_of_inputs (h : c.inputs = .ok xs) : ∃ ins ts,
    c.graph.inputsOf c.id = .ok ins ∧ c.graph.tensors ins = .ok ts ∧
      xs.map (·.type) = ts.map (·.type) := by
  obtain ⟨ins, hins, hxs⟩ := inputs_ok_iff.1 h
  obtain ⟨ts, hts⟩ := Graph.tensors_ok_of_inputsOf hins
  refine ⟨ins, ts, hins, hts, ?_⟩
  have hall := forall₂_comp hxs.flip (mapM_ok_iff.1 hts)
  refine eq_map_of_forall₂ (List.forall₂_map_right_iff.2 (hall.flip.imp ?_))
  rintro t x ⟨v, ⟨u, hu, rfl⟩, ht⟩
  rw [Except.ok.inj (hu.symm.trans ht)]

/-- The inputs of an operator of a built graph have what it takes for its output, however their
dimensions are read as numbers, if slices end within them. -/
theorem KernelContext.readsFrom_of_built [Scalar α] {ops : List OpId} {s : Supply}
    (hval : Dim.Reads val) (halike : ∀ d e : Dim, d.Alike e → val d = val e)
    (hb : Built s c.graph) (hops : c.graph.topologicalOrder = .ok ops) (ho : c.id ∈ ops)
    (hn : c.graph.node? c.id = some c.node) (hc : c.Ready placed y xs)
    (hpos : ∀ t ∈ y.type :: xs.map (·.type), t.PositiveAt val)
    (hslices : ∀ x ∈ xs, c.node.op.SlicesWithin (x.type.sizesAt val)) :
    ∀ x ∈ xs, c.node.op.ReadsFrom val x.type y.type := by
  obtain ⟨ds, hsession⟩ := hb
  have hwf := hsession.wellformed
  obtain ⟨n, t, hn', hslot, -⟩ := Graph.output_of_mem_topologicalOrder hwf hops ho
  obtain rfl := Option.some.inj (hn.symm.trans hn')
  obtain ⟨v, u, hv, hu, rfl⟩ := output_ok_iff.1 hc.output
  obtain rfl := Except.ok.inj (hv.symm.trans (Graph.resolve_of_live hslot))
  obtain rfl := Except.ok.inj (hu.symm.trans (Graph.tensor_ok_iff.2 ⟨_, hslot⟩))
  obtain ⟨ins, ts, hins, hts, htypes⟩ := tensors_of_inputs hc.inputs
  by_cases hop : ∃ f, c.node.op = .pointwise f
  · obtain ⟨f, hop⟩ := hop
    obtain ⟨σ, hσ⟩ := hsession.named
    have hnamed := hσ.inputTypes hts
    obtain ⟨-, hfits⟩ : (Operator.pointwise f).Fits (xs.map (·.type)) u.type := hop ▸ hc.fits
    intro x hx
    rw [hop]
    have hx' := List.mem_map_of_mem (f := (·.type)) hx
    exact TensorType.Broadcasts.at_named (hfits _ hx') (hnamed _ (htypes ▸ hx'))
      (hσ.tensors _ _ _ hslot) val
  · rw [not_exists] at hop
    obtain ⟨x, -, hsole⟩ := hc.soleOperand hop
    obtain ⟨xs', hxs', hsole⟩ := bind_ok_iff.1 hsole
    obtain rfl := Except.ok.inj (hc.inputs.symm.trans hxs')
    obtain rfl := soleInput_ok_iff.1 hsole
    obtain ⟨hy, hx⟩ := List.forall_mem_cons.1 hpos
    have hx : x.type.PositiveAt val := hx x.type (List.mem_singleton_self _)
    -- Inference gives the shape of the output again, but for the numbers of its symbols.
    obtain ⟨type, _, hinfer, -, hshape⟩ := hsession.inferred.again hn hins hts hslot s
    rw [← htypes] at hinfer
    have htype : ReadAs val type.shape (u.type.sizesAt val) :=
      (forall₂_comp hshape hy.readAs).imp fun d n ⟨e, hde, he⟩ => (halike d e hde).trans he
    refine List.forall_mem_singleton.2 ((Operator.readsFrom_movement hop).2 ?_)
    exact Operator.moves_of_reads hval hop hinfer hx.readAs htype
      (hslices x (List.mem_singleton_self x))

end

/-! ## The loop of a kernel -/

/-- The loop of a kernel over linear memory, in terms of its operator: it walks the elements of the
output one by one, applies the function of the operator, and reads each operand in its region at the
position that the operator takes. -/
structure Linear.LoopFor {α : Type} (val : Dim → Option Nat) (layout : MemoryLayout)
    (op : Operator α) (y : Operand) (xs : List Operand) (k : Kernel α) : Prop where
  kind : k.kind = op.kind
  function : ∀ f, op = .pointwise f → k.pointwise? = some f
  rank : k.int? "rank" = some y.type.rank
  size : k.int? "size" = some (y.type.sizesAt val).prod
  output : ∃ a, layout.get? y.var = some a ∧ k.buffer? "y" = some a
  writes : ∀ i < (y.type.sizesAt val).prod, k.writeIndex? y.type.rank i = some i
  operand : ∀ name x, (name, x) ∈ op.kind.inputNames.zip xs →
    ∃ a, layout.get? x.var = some a ∧ k.buffer? name = some a
  reads : ∀ name x, (name, x) ∈ op.kind.inputNames.zip xs → ∀ i,
    k.readIndex? y.type.rank name i = some (op.sourceAt val x.type y.type i)

section

variable {α τ : Type} {val : Dim → Option Nat} {c : KernelContext α τ} {layout : MemoryLayout}
  {entries : List (String × Binding α)} {y : Operand} {xs : List Operand} {k : Kernel α}
  {f : Pointwise α} {s s' : Supply}

theorem isElementwise_pointwise (f : Pointwise α) : f.kind.isElementwise = true := by
  cases f <;> rfl

theorem not_isElementwise_movement {op : Operator α} (hop : ∀ f, op ≠ .pointwise f) :
    op.kind.isElementwise = false := by
  cases op with
  | pointwise f => exact absurd rfl (hop f)
  | _ => rfl

/-- The parameters of a pointwise operator can be read back. -/
theorem pointwise?_of_provides (hkind : k.kind = f.kind)
    (hk : k.ProvidesAt val f.parameterBindings) : k.pointwise? = some f := by
  unfold Kernel.pointwise?
  rw [hkind]
  cases f with
  | affine scale bias =>
    have hscale : k.float? "scale" = some scale := hk.float (by simp [Pointwise.parameterBindings])
    have hbias : k.float? "bias" = some bias := hk.float (by simp [Pointwise.parameterBindings])
    simp [Pointwise.kind, hscale, hbias]
  | _ => rfl

/-- Every operand of a pointwise operator has a stride along each axis of the output. -/
theorem exists_strides_of_unify {order : IterationOrder}
    (hfits : (Operator.pointwise f).Fits (xs.map (·.type)) y.type)
    (h : Makes (IterationOrder.unify y.type (xs.map (·.type))) s order s') {names : List String}
    {name : String} {x : Operand} (hx : (name, x) ∈ names.zip xs) :
    ∃ ds, (name, x, ds) ∈ names.zip (xs.zip order.strides.tail) ∧
      ∃ r r', Makes (y.type.dims.mapM (IterationOrder.strideAlong x.type)) r ds r' := by
  obtain ⟨-, -, hall⟩ := unify_of_fits hfits h
  obtain ⟨ds₀, rest, -, hrest, hstrides⟩ := List.forall₂_cons_left_iff.1 hall
  have hlength : xs.length ≤ order.strides.tail.length := by
    simp [length_strides_of_unify h]
  obtain ⟨ds, hmem⟩ := exists_mem_zip_zip hlength hx
  refine ⟨ds, hmem, ?_⟩
  obtain ⟨j, hj⟩ := List.mem_iff_getElem?.1 (List.of_mem_zip hmem).2
  obtain ⟨hxj, hdsj⟩ := List.getElem?_zip_eq_some.1 hj
  rw [hstrides] at hdsj
  exact forall₂_getElem? hrest (by rw [List.getElem?_map, hxj]; rfl) hdsj

/-- A binding of a number. -/
theorem Kernel.ProvidesAt.known (hval : Dim.Reads val) (hk : k.ProvidesAt val entries)
    {name : String} {n : Nat} (hm : (name, .int (.known n)) ∈ entries) : k.int? name = some n := by
  obtain ⟨m, hm, hread⟩ := hk.int hm
  rw [hread, ← hm, hval.known]

/-- A binding of the size of a shape. -/
theorem Kernel.ProvidesAt.product (hval : Dim.Reads val) (hk : k.ProvidesAt val entries)
    {name : String} {ds : List Dim} {ns : List Nat} {size : Dim} {r r' : Supply}
    (hns : ReadAs val ds ns) (hsize : Makes (Dim.product ds) r size r')
    (hm : (name, .int size) ∈ entries) : k.int? name = some ns.prod := by
  obtain ⟨n, hn, hread⟩ := hk.int hm
  rw [hread, hval.prod_eq hns hsize hn]

/-- A binding of strides along the axes of the output walks an input that is broadcast to it. -/
theorem Kernel.ProvidesAt.walk (hval : Dim.Reads val) (hk : k.ProvidesAt val entries)
    {x y : TensorType} {name : String} {ds : List Dim} {r r' : Supply} (hx : x.PositiveAt val)
    (hy : y.PositiveAt val) (hfit : x.BroadcastsAt val y)
    (hds : Makes (y.dims.mapM (IterationOrder.strideAlong x)) r ds r')
    (hm : (name, .ints ds) ∈ entries) :
    ∃ strides, k.ints? name = some strides ∧ ∀ i,
      axisWalk (y.sizesAt val) (along strides) y.rank i 0 =
        some (offset x.order.axes (x.sizesAt val) (coordinate y.order.axes (y.sizesAt val) i)) := by
  obtain ⟨strides, hread, hprovided⟩ := hk.ints hm
  have hlen : (y.sizesAt val).length = y.rank := hy.readAs.length_eq.symm
  refine ⟨strides, hprovided, fun i => ?_⟩
  rw [← hlen]
  exact axisWalk_broadcast hval hx.readAs hy.readAs hfit hds hread hy.pos i

/-- The tables of a movement are read as those of its operator on the numbers of the input. -/
theorem Operator.movementTables_readAs (hval : Dim.Reads val) {op : Operator α} {x : TensorType}
    {ns : List Nat} (hx : ReadAs val x.shape ns) :
    List.Forall₂ (fun e t => e.1 = t.1 ∧ ReadAs val e.2 t.2) (op.movementTables x)
      (op.tablesOf ns) := by
  cases op <;> simp [Operator.movementTables, Operator.tablesOf, hx, readAs_known hval.known]

theorem Linear.loop_of_pointwise (hval : Dim.Reads val)
    (h : Gives (Linear.pointwiseBindings layout c f) s entries s')
    (hfits : (Operator.pointwise f).Fits (xs.map (·.type)) y.type) (hc : c.output = .ok y)
    (hxs : c.inputs = .ok xs) (hk : k.ProvidesAt val entries) (hkind : k.kind = f.kind)
    (hpos : ∀ t ∈ y.type :: xs.map (·.type), t.PositiveAt val)
    (hreads : ∀ x ∈ xs, x.type.BroadcastsAt val y.type) :
    Linear.LoopFor val layout (.pointwise f) y xs k := by
  obtain ⟨y', xs', order, place, size, s₁, operands, hy, hinputs, horder, hplace, hsize, hall,
    hentries⟩ := pointwiseBindings_gives h
  obtain rfl := Except.ok.inj (hc.symm.trans hy)
  obtain rfl := Except.ok.inj (hxs.symm.trans hinputs)
  obtain ⟨hrank, hshape, hstrides⟩ := unify_of_fits hfits horder
  obtain ⟨hypos, hxpos⟩ := List.forall_mem_cons.1 hpos
  rw [IterationOrder.size, hshape] at hsize
  -- The loop runs over the shape of the output.
  have hshapes : k.ints? "shape" = some (y.type.sizesAt val) :=
    hk.ints_eq hypos.readAs (by simp [hentries, hshape])
  have hlen : (y.type.sizesAt val).length = y.type.rank := hypos.readAs.length_eq.symm
  have helementwise : k.kind.isElementwise = true := hkind ▸ isElementwise_pointwise f
  refine {
    kind := hkind
    function := ?_
    rank := hrank ▸ hk.known hval (by simp [hentries])
    size := hk.product hval hypos.readAs hsize (by simp [hentries])
    output := ⟨place, hplace, hk.buffer (by simp [hentries])⟩
    writes := fun i hi => ?_
    operand := fun name x hx => ?_
    reads := fun name x hx i => ?_ }
  · rintro _ ⟨⟩
    exact pointwise?_of_provides hkind fun name b hb =>
      hk name b (hentries ▸ List.mem_append_right _ hb)
  · cases hstrides' : order.strides with
    | nil => simp [hstrides'] at hstrides
    | cons ds rest =>
      rw [hstrides'] at hstrides
      obtain ⟨⟨r, r', hds⟩, -⟩ := List.forall₂_cons.1 hstrides
      obtain ⟨strides, hprovided, hwalk⟩ := hk.walk hval hypos hypos
        (TensorType.broadcastsAt_self val y.type) hds
        (show ("y_stride", .ints ds) ∈ entries by simp [hentries, hstrides'])
      rw [Kernel.writeIndex?, if_pos helementwise, hshapes, hprovided]
      refine (hwalk i).trans ?_
      rw [offset_coordinate y.type.order.nodup (y.type.rank_eq.symm.trans hlen.symm),
        Nat.mod_eq_of_lt hi]
  all_goals
    obtain ⟨ds, hmem, r, r', hds⟩ := exists_strides_of_unify hfits horder hx
    obtain ⟨_, hpart, a, ha, rfl⟩ := exists_of_forall₂_left hall hmem
    have hentry : ∀ e ∈ operandBindings name a ds, e ∈ entries := fun e he =>
      hentries ▸ List.mem_append_left _ (List.mem_append_right _ (List.mem_flatten.2 ⟨_, hpart, he⟩))
  · exact ⟨a, ha, hk.buffer (hentry _ (by simp [operandBindings]))⟩
  · have hx' : x ∈ xs := (List.of_mem_zip hx).2
    obtain ⟨strides, hprovided, hwalk⟩ := hk.walk hval (hxpos _ (List.mem_map_of_mem hx')) hypos
      (hreads x hx') hds (hentry (strideName name, .ints ds) (by simp [operandBindings]))
    rw [Kernel.readIndex?, if_pos helementwise, hshapes, hprovided]
    exact hwalk i

theorem Linear.loop_of_movement (hval : Dim.Reads val)
    (h : Gives (Linear.movementBindings layout c) s entries s')
    (hop : ∀ f, c.node.op ≠ .pointwise f) (hfits : c.node.op.Fits (xs.map (·.type)) y.type)
    (hc : c.output = .ok y) (hxs : c.inputs = .ok xs) (hk : k.ProvidesAt val entries)
    (hkind : k.kind = c.node.op.kind) (hpos : ∀ t ∈ y.type :: xs.map (·.type), t.PositiveAt val)
    (hreads : ∀ x ∈ xs, c.node.op.Moves x.type.order.axes (x.type.sizesAt val) (y.type.sizesAt val)) :
    Linear.LoopFor val layout c.node.op y xs k := by
  obtain ⟨y', x, place, input, strides, size, s₁, hy, hinputs, hplace, hinput, hstrides, hsize,
    hentries⟩ := movementBindings_gives h
  obtain rfl := Except.ok.inj (hc.symm.trans hy)
  obtain rfl := Except.ok.inj (hxs.symm.trans hinputs)
  obtain ⟨hypos, hxpos⟩ := List.forall_mem_cons.1 hpos
  have hxpos : x.type.PositiveAt val := hxpos _ (by simp)
  have hmoves := hreads x (List.mem_singleton_self x)
  have hshape : k.ints? "y_shape" = some (y.type.sizesAt val) :=
    hk.ints_eq hypos.readAs (by simp [hentries])
  obtain ⟨ts, hts, hstride⟩ : ∃ ns, ReadAs val strides ns ∧ k.ints? "x_stride" = some ns :=
    hk.ints (by simp [hentries])
  obtain rfl := hval.strideList_eq hxpos.readAs hstrides hts
  have hlen : (y.type.sizesAt val).length = y.type.rank := hypos.readAs.length_eq.symm
  have htables : ∀ e ∈ c.node.op.tablesOf (x.type.sizesAt val), k.ints? e.1 = some e.2 := by
    intro e he
    obtain ⟨d, hd, hname, hread⟩ :=
      exists_of_forall₂_right (Operator.movementTables_readAs hval hxpos.readAs) he
    exact hk.ints_eq hread
      (hentries ▸ List.mem_append_right _ (List.mem_map.2 ⟨d, hd, by rw [hname]⟩))
  have hloop : k.MovementLoop c.node.op (x.type.sizesAt val) (y.type.sizesAt val) 0 := {
    kind := hkind
    shape := by simpa using hshape
    strides := by simpa using hstride
    aligned := Operator.aligned_of_fits hfits hxpos.readAs.length_eq
    tables := fun e he => by simpa using htables e he }
  have helementwise : k.kind.isElementwise = false := hkind ▸ not_isElementwise_movement hop
  refine {
    kind := hkind
    function := fun f hf => absurd hf (hop f)
    rank := hk.known hval (by simp [hentries])
    size := hk.product hval hypos.readAs hsize (by simp [hentries])
    output := ⟨place, hplace, hk.buffer (by simp [hentries])⟩
    writes := fun i _ => by rw [Kernel.writeIndex?, helementwise]; rfl
    operand := fun name x' hx' => ?_
    reads := fun name x' hx' i => ?_ }
  · obtain ⟨rfl, rfl⟩ := operand_of_movement hop hx'
    exact ⟨input, hinput, hk.buffer (by simp [hentries])⟩
  · obtain ⟨rfl, rfl⟩ := operand_of_movement hop hx'
    have hwalk := hloop.axisWalk_eq hmoves hxpos.pos hypos.pos i
    rw [List.replicate_zero, List.append_nil, List.append_nil, Nat.add_zero, hlen] at hwalk
    rw [Kernel.readIndex?, helementwise, hshape, hstride, Operator.sourceAt_movement hop]
    exact hwalk

/-- The bindings of a kernel spell out the loop of its operator. -/
theorem Linear.loop_of_provides {placed : VarId → Prop} (hval : Dim.Reads val)
    (h : Gives (Linear.bindings layout c) s entries s') (hc : c.Ready placed y xs)
    (hk : k.ProvidesAt val entries) (hkind : k.kind = c.node.op.kind)
    (hpos : ∀ t ∈ y.type :: xs.map (·.type), t.PositiveAt val)
    (hreads : ∀ x ∈ xs, c.node.op.ReadsFrom val x.type y.type) :
    Linear.LoopFor val layout c.node.op y xs k := by
  unfold Linear.bindings at h
  split at h
  · next f hop =>
    rw [hop] at hreads hkind ⊢
    exact loop_of_pointwise hval h (hop ▸ hc.fits) hc.output hc.inputs hk hkind hpos hreads
  · next hop =>
    have hop : ∀ f, c.node.op ≠ .pointwise f := fun f hf => hop f hf
    exact loop_of_movement hval h hop hc.fits hc.output hc.inputs hk hkind hpos fun x hx =>
      (Operator.readsFrom_movement hop).1 (hreads x hx)

end

/-! ## Patches -/

/-- The patches of a kernel are for symbolic dimensions, each of which is the offset of a region or
comes from the type of an operand. -/
theorem Linear.FilledFor.forall_patches {α : Type} [ScalarText α] {P : Dim → Prop} {g : Graph α}
    {layout : MemoryLayout} {o : OpId} {k : Kernel α} {vars : List VarId} {ops : List OpId}
    (h : Linear.FilledFor layout g o k) (hg : g.Wellformed) (htyped : g.Typed)
    (hops : g.topologicalOrder = .ok ops) (hvars : g.reachable = .ok vars) (ho : o ∈ ops)
    (hknown : ∀ n, P (.known n)) (hall : ∀ v ∈ vars, ∀ t, g.tensor v = .ok t → t.type.All P)
    (hlayout : ∀ e ∈ layout.allocations, P e.2.offset) :
    ∀ p ∈ k.patches, p.dim.known? = none ∧ P p.dim := by
  obtain ⟨⟨τ, c, entries, r, r', injector, template, injected, rfl, rfl, hn, hentries, hd, hbindings,
    hinject, -, -, hpatches, -⟩, -⟩ := h
  obtain ⟨y, xs, hc⟩ : ∃ y xs, c.Ready (fun v => v ∈ vars) y xs :=
    KernelContext.exists_ready hg htyped hops hvars (fun _ hv => hv) ho hn
  have hmade : ∀ e ∈ entries, e.2.Made layout P := by
    refine Linear.made_of_bindings hc (fun t ht => ?_) (hknown 0) (hknown _)
      (fun _ _ _ _ k _ => hknown k) hentries
    obtain ⟨v, u, hv, hu, rfl⟩ := hc.types t ht
    exact hall v hv u hu
  have hdims : ∀ e ∈ entries, ∀ x ∈ e.2.dims, P x := by
    rintro ⟨name, b⟩ he x hx
    cases hmade _ he with
    | region hv => exact List.mem_singleton.1 hx ▸ hlayout _ (MemoryLayout.mem_of_get? hv)
    | scalar => cases hx
    | int hP => exact List.mem_singleton.1 hx ▸ hP
    | ints hP => exact hP x hx
  intro p hp
  obtain ⟨hsymbolic, name, b, hb, hx⟩ := binds_of_patches hd hinject p (hpatches ▸ hp)
  refine ⟨hsymbolic, ?_⟩
  rcases hbindings with ⟨-, hbindings⟩ | ⟨workgroups, size, -, hbindings⟩
  · rw [hbindings] at hb
    exact hdims _ (Bindings.mem_of_get?_ofList hb) _ hx
  · rw [hbindings] at hb
    rcases List.mem_cons.1 (Bindings.mem_of_get?_ofList hb) with heq | hb
    · cases heq
      exact List.mem_singleton.1 hx ▸ hknown size
    · exact hdims _ hb _ hx

end TensorCompiler
