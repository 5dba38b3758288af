import TensorCompiler.Proofs.Emission
import TensorCompiler.Proofs.Movement
/-!
# Kernels that move data

The tables of a kernel that moves data are the sizes and parameters of its operator, behind each
other in a meta table or filled up in uniforms. Whatever the backend, the loop over them arrives at
the source index.

* `Kernel.MovementTables`: the tables that a kernel provides for an operator on known sizes.
* `Kernel.MovementLoop.axisWalk_eq`: the loop over them arrives at the source index.
* `movementTables_of_generate`: the kernels that are generated provide these tables.
-/

namespace TensorCompiler

open Dim

/-! ## Known strides and sizes -/

theorem strides_known {sizes strides : List Nat} {ds : List Dim} {s s' : Supply}
    (h : wordStrides sizes = some strides)
    (hd : Makes (TensorType.stridesOf (sizes.map known)) s ds s') : ds = strides.map known := by
  induction sizes generalizing strides ds s s' with
  | nil =>
    cases h
    exact (makes_pure_iff.1 hd).1.symm
  | cons m sizes ih =>
    cases sizes with
    | nil =>
      cases h
      exact (makes_pure_iff.1 hd).1.symm
    | cons n sizes =>
      simp only [wordStrides, bind, pure, Option.bind_eq_some_iff, Option.some.injEq] at h
      obtain ⟨inner, hinner, outer, houter, rfl⟩ := h
      simp only [List.map_cons, TensorType.stridesOf, makes_bind_iff, makes_pure_iff] at hd
      obtain ⟨ds', s₁, hds', d, s₂, hd', rfl, rfl⟩ := hd
      obtain rfl := ih hinner hds'
      have hhead : (inner.map known).headD (known 1) = known (inner.headD 1) := by
        cases inner <;> rfl
      rw [hhead] at hd'
      rw [(combine_known houter hd').1, List.map_cons]

theorem product_known {sizes : List Nat} {d : Dim} {s s' : Supply} (hpos : ∀ n ∈ sizes, 0 < n)
    (hsized : sizes.prod < wordLimit) (h : Makes (Dim.product (sizes.map known)) s d s') :
    d = known sizes.prod := by
  suffices gen : ∀ a s, a * sizes.prod < wordLimit →
      Makes ((sizes.map known).foldlM (combine .mul) (known a)) s d s' →
      d = known (a * sizes.prod) by
    have := gen 1 s (by rwa [Nat.one_mul]) h
    rwa [Nat.one_mul] at this
  clear hsized h
  induction sizes with
  | nil =>
    intro a s _ h
    rw [List.prod_nil, Nat.mul_one]
    exact (makes_pure_iff.1 h).1.symm
  | cons n sizes ih =>
    intro a s hlt h
    obtain ⟨hn, hpos⟩ := List.forall_mem_cons.1 hpos
    rw [List.prod_cons, ← Nat.mul_assoc] at hlt ⊢
    rw [List.map_cons, List.foldlM_cons, makes_bind_iff] at h
    obtain ⟨acc, s₁, hacc, h⟩ := h
    have hle : a * n < wordLimit := Nat.lt_of_le_of_lt
      (Nat.le_mul_of_pos_right _ (List.prod_pos_iff_forall_pos_nat.2 hpos)) hlt
    have happly : Arith.mul.apply a n = some (a * n) := if_pos hle
    obtain ⟨rfl, -⟩ := combine_known happly hacc
    exact ih hpos _ _ hlt h

theorem map_stored_known (ns : List Nat) : (ns.map known).map Dim.stored = ns := by
  rw [List.map_map]
  exact List.map_id ns

/-! ## Tables -/

namespace Operator

variable {α : Type}

/-- The tables of an operator's coordinate rule on known sizes. -/
def tablesOf (op : Operator α) (xs : List Nat) : List (String × List Nat) :=
  match op with
  | tile _ => [("x_shape", xs)]
  | slice start _ step => [("slice_begin", start), ("slice_step", step)]
  | resize .. => [("x_shape", xs)]
  | _ => []

theorem movementTables_known {op : Operator α} {x : TensorType} {xs : List Nat}
    (hx : x.shape = xs.map known) :
    op.movementTables x = (op.tablesOf xs).map fun e => (e.1, e.2.map known) := by
  cases op <;> simp [movementTables, tablesOf, hx]

/-- Every table has an entry for each axis of the input. -/
theorem aligned_of_fits {op : Operator α} {x y : TensorType} {xs : List Nat} (h : op.Fits [x] y)
    (hrank : x.rank = xs.length) : ∀ e ∈ op.tablesOf xs, e.2.length = xs.length := by
  cases op with
  | slice start stop step =>
    obtain ⟨_, ⟨⟩, -, hstart, -, hstep⟩ := h
    simp [tablesOf, hstart, hstep, hrank]
  | _ => simp [tablesOf]

end Operator

namespace Kernel

variable {α : Type}

/-- The tables of a kernel are those of an operator that moves data, filled up for `m` more axes. -/
structure MovementLoop (k : Kernel α) (op : Operator α) (xs ys : List Nat) (m : Nat) : Prop where
  kind : k.kind = op.kind
  shape : k.ints? "y_shape" = some (ys ++ List.replicate m 1)
  strides : k.ints? "x_stride" = some (strideList xs ++ List.replicate m 1)
  aligned : ∀ e ∈ op.tablesOf xs, e.2.length = xs.length
  tables : ∀ e ∈ op.tablesOf xs,
    k.ints? e.1 = some (e.2 ++ List.replicate m (Glsl.neutralEntry e.1))

/-- A kernel provides these tables as signed words. -/
structure MovementTables (k : Kernel α) (op : Operator α) (xs ys : List Nat) (m : Nat) : Prop
    extends k.MovementLoop op xs ys m where
  fits : ∀ name ∈ "y_shape" :: "x_stride" :: op.movementNames, ∀ ns, k.ints? name = some ns →
    ∀ n ∈ ns, n < 0x80000000

/-- The number of axes that the loop of a kernel walks. -/
def loopRank? (k : Kernel α) : Option Nat :=
  match k.launch with
  | .fragment .. => some Glsl.maxRank
  | _ => k.int? "rank"

/-- The number of elements that a kernel computes. -/
def loopSize? (k : Kernel α) : Option Nat :=
  match k.launch with
  | .fragment .. => k.int? "y_size"
  | _ => k.int? "size"

/-! ## The loop over the tables -/

variable {k : Kernel α} {op : Operator α} {xs ys : List Nat} {axes : List Axis} {m d i : Nat}

theorem ofKind_kind (op : Operator α) : CoordinateRule.ofKind op.kind = op.coordinateRule := by
  cases op with
  | pointwise f => cases f <;> rfl
  | _ => rfl

theorem getElem?_filled (m fill : Nat) {ns : List Nat} {n : Nat} (h : ns[d]? = some n) :
    (ns ++ List.replicate m fill)[d]? = some n := by
  rw [List.getElem?_append_left (List.getElem?_eq_some_iff.1 h).1, h]

theorem getElem?_filling {ns : List Nat} {fill : Nat} (h : ns.length ≤ d) (h' : d < ns.length + m) :
    (ns ++ List.replicate m fill)[d]? = some fill := by
  rw [List.getElem?_append_right h, List.getElem?_replicate, if_pos (by omega)]

/-- Along the axes of the input, a round of the loop adds the part of the axis. -/
theorem MovementLoop.movementPart_eq {a : Axis} {x y c t : Nat} (h : k.MovementLoop op xs ys m)
    (hmove : op.MovesAt a d x y) (hx : xs[d]? = some x) (hy : ys[d]? = some y)
    (ht : (strideList xs)[d]? = some t) (hxpos : 0 < x) (hypos : 0 < y) :
    k.movementPart (strideList xs ++ List.replicate m 1) d c =
      some (op.sourceCoordinate d x y c * t) := by
  have hstride := getElem?_filled m 1 ht
  have hshape := getElem?_filled m 1 hy
  unfold movementPart
  rw [h.kind, ofKind_kind]
  cases op with
  | pointwise f => cases hmove
  | reinterpret source target =>
    simp [Operator.coordinateRule, CoordinateRule.coordinate?, Operator.sourceCoordinate, hstride]
  | tile _ =>
    have htable := h.tables ("x_shape", xs) (by simp [Operator.tablesOf])
    have hentry := getElem?_filled m (Glsl.neutralEntry "x_shape") hx
    simp [Operator.coordinateRule, CoordinateRule.coordinate?, Operator.sourceCoordinate, hstride,
      htable, hentry, Arith.apply, hxpos.ne']
  | slice start stop step =>
    obtain ⟨b, e, n, hb, -, hn, -, -, -, -⟩ := hmove
    have hbegin := h.tables ("slice_begin", start) (by simp [Operator.tablesOf])
    have hstep := h.tables ("slice_step", step) (by simp [Operator.tablesOf])
    have hb' := getElem?_filled m (Glsl.neutralEntry "slice_begin") hb
    have hn' := getElem?_filled m (Glsl.neutralEntry "slice_step") hn
    simp [Operator.coordinateRule, CoordinateRule.coordinate?, Operator.sourceCoordinate, hstride,
      hbegin, hstep, hb', hn', hb, hn]
  | resize a₁ _ a₂ _ =>
    have htable := h.tables ("x_shape", xs) (by simp [Operator.tablesOf])
    have hentry := getElem?_filled m (Glsl.neutralEntry "x_shape") hx
    simp [Operator.coordinateRule, CoordinateRule.coordinate?, Operator.sourceCoordinate, hstride,
      htable, hentry, h.shape, hshape, Arith.apply, hypos.ne']

/-- Along the axes that fill the tables up, it adds nothing. -/
theorem MovementLoop.movementPart_filling (h : k.MovementLoop op xs ys m)
    (hmove : op.Moves axes xs ys) (hd : xs.length ≤ d) (hd' : d < xs.length + m) :
    k.movementPart (strideList xs ++ List.replicate m 1) d 0 = some 0 := by
  have filling : ∀ {ns : List Nat} (fill : Nat), ns.length = xs.length →
      (ns ++ List.replicate m fill)[d]? = some fill := fun fill hlen =>
    getElem?_filling (hlen ▸ hd) (hlen ▸ hd')
  have entry : ∀ e ∈ op.tablesOf xs, (k.ints? e.1).bind (·[d]?) = some (Glsl.neutralEntry e.1) :=
    fun e he => by rw [h.tables e he, Option.bind_some, filling _ (h.aligned e he)]
  have hstride := filling 1 (length_strideList xs)
  have hshape := filling 1 hmove.length
  unfold movementPart
  rw [h.kind, ofKind_kind]
  cases op with
  | pointwise f =>
    simp [Operator.coordinateRule, CoordinateRule.coordinate?, hstride]
  | reinterpret source target =>
    simp [Operator.coordinateRule, CoordinateRule.coordinate?, hstride]
  | tile _ =>
    have hx := entry ("x_shape", xs) (by simp [Operator.tablesOf])
    simp [Operator.coordinateRule, CoordinateRule.coordinate?, hstride, hx, Glsl.neutralEntry,
      Arith.apply]
  | slice start stop step =>
    have hbegin := entry ("slice_begin", start) (by simp [Operator.tablesOf])
    have hstep := entry ("slice_step", step) (by simp [Operator.tablesOf])
    simp [Operator.coordinateRule, CoordinateRule.coordinate?, hstride, hbegin, hstep,
      Glsl.neutralEntry]
  | resize a₁ _ a₂ _ =>
    have hx := entry ("x_shape", xs) (by simp [Operator.tablesOf])
    simp [Operator.coordinateRule, CoordinateRule.coordinate?, hstride, hx, h.shape, hshape,
      Glsl.neutralEntry, Arith.apply]

/-- The loop arrives at the source index. -/
theorem MovementLoop.axisWalk_eq (h : k.MovementLoop op xs ys m) (hmove : op.Moves axes xs ys)
    (hx : ∀ n ∈ xs, 0 < n) (hy : ∀ n ∈ ys, 0 < n) (i : Nat) :
    axisWalk (ys ++ List.replicate m 1)
      (k.movementPart (strideList xs ++ List.replicate m 1)) (ys.length + m) i 0 =
        some (op.sourceIndexOf xs ys i) := by
  rw [axisWalk_pad m fun d hd hd' => h.movementPart_filling hmove (hmove.length ▸ hd)
    (hmove.length ▸ hd')]
  refine hmove.axisWalk_eq hy fun d x y c t hxd hyd ht hypos => ?_
  have hd : d < axes.length := hmove.rank ▸ (List.getElem?_eq_some_iff.1 hxd).1
  have hat := hmove.sizes d _ x y (List.getElem?_eq_getElem hd) hxd hyd
  exact h.movementPart_eq hat hxd hyd ht (hx x (List.mem_of_getElem? hxd)) hypos

end Kernel

/-! ## Emitted kernels -/

section

variable {α : Type} {g : Graph α} {o : OpId} {n : Node α} {k : Kernel α} {x : VarId}
  {tx ty : Tensor α} {xs ys : List Nat}

/-- An operator that moves data, between operands of known positive sizes that fit words. -/
structure Graph.MovesAt (g : Graph α) (o : OpId) (n : Node α) (x : VarId) (tx ty : Tensor α)
    (xs ys : List Nat) : Prop where
  node : g.node? o = some n
  notPointwise : ∀ f, n.op ≠ .pointwise f
  reads : g.inputsOf o = .ok [x]
  input : g.tensor x = .ok tx
  output : g.tensor n.output = .ok ty
  inputShape : tx.type.shape = xs.map known
  outputShape : ty.type.shape = ys.map known
  inputPos : ∀ n ∈ xs, 0 < n
  outputPos : ∀ n ∈ ys, 0 < n
  inputSized : xs.prod < wordLimit
  outputSized : ys.prod < wordLimit
  fits : n.op.Fits [tx.type] ty.type
  moves : n.op.Moves tx.type.order.axes xs ys

/-- In a built graph, what inference has checked still relates the operands. -/
theorem Graph.movesAt_of_built [Scalar α] {s : Supply} (h : Built s g) (hn : g.node? o = some n)
    (hop : ∀ f, n.op ≠ .pointwise f) (hins : g.inputsOf o = .ok [x]) (hx : g.tensor x = .ok tx)
    (hy : g.tensor n.output = .ok ty) (hxs : tx.type.shape = xs.map known)
    (hys : ty.type.shape = ys.map known) (hposx : ∀ n ∈ xs, 0 < n) (hposy : ∀ n ∈ ys, 0 < n) :
    g.MovesAt o n x tx ty xs ys := by
  obtain ⟨ds, h⟩ := h
  obtain ⟨p, hslot⟩ := tensor_ok_iff.1 hy
  obtain ⟨q, hslotx⟩ := tensor_ok_iff.1 hx
  have hts : g.tensors [x] = .ok [tx] := by
    rw [Graph.tensors, mapM_ok_iff]
    exact .cons hx .nil
  obtain ⟨type, s', hinfer, horder, halike⟩ := h.inferred.again hn hins hts hslot s
  rw [hys] at halike
  exact {
    node := hn
    notPointwise := hop
    reads := hins
    input := hx
    output := hy
    inputShape := hxs
    outputShape := hys
    inputPos := hposx
    outputPos := hposy
    inputSized := (h.sound x tx q hslotx).1 xs hxs
    outputSized := (h.sound n.output ty p hslot).1 ys hys
    fits := h.typed o n [x] [tx] ty p hn hins hts hslot
    moves := Operator.moves_of_infer hop hinfer hxs (eq_known_of_alike halike) }

theorem Graph.MovesAt.aligned (h : g.MovesAt o n x tx ty xs ys) :
    ∀ e ∈ n.op.tablesOf xs, e.2.length = xs.length := by
  refine Operator.aligned_of_fits h.fits ?_
  rw [TensorType.rank, h.inputShape, List.length_map]

/-- The operands that a handler sees. -/
theorem Graph.MovesAt.operands {τ : Type} {c : KernelContext α τ} {a b : Operand}
    (h : g.MovesAt o n x tx ty xs ys) (hg : c.graph = g) (hid : c.id = o)
    (hnode : g.node? o = some c.node) (hb : c.output = .ok b) (ha : c.inputs = .ok [a]) :
    c.node = n ∧ b = ⟨n.output, ty.type⟩ ∧ a = ⟨x, tx.type⟩ := by
  subst hg hid
  obtain rfl : n = c.node := Option.some.inj (h.node.symm.trans hnode)
  obtain ⟨v, t, hv, ht, rfl⟩ := output_ok_iff.1 hb
  obtain ⟨ins, hins, hall⟩ := inputs_ok_iff.1 ha
  rw [Except.ok.inj (hins.symm.trans h.reads)] at hall
  obtain ⟨⟨u, hu, rfl⟩, -⟩ := List.forall₂_cons.1 hall
  rw [Graph.resolve_of_tensor h.output] at hv
  cases hv
  cases ht.symm.trans h.output
  cases hu.symm.trans h.input
  exact ⟨rfl, rfl, rfl⟩

theorem Graph.MovesAt.movementTables (h : g.MovesAt o n x tx ty xs ys) :
    n.op.movementTables tx.type = (n.op.tablesOf xs).map fun e => (e.1, e.2.map known) :=
  Operator.movementTables_known h.inputShape

theorem Graph.MovesAt.strides (h : g.MovesAt o n x tx ty xs ys) {ds : List Dim} {s s' : Supply}
    (hd : Makes tx.type.strides s ds s') : ds = (strideList xs).map known := by
  unfold TensorType.strides at hd
  rw [h.inputShape] at hd
  exact strides_known (wordStrides_of_pos h.inputPos h.inputSized) hd

theorem Graph.MovesAt.size (h : g.MovesAt o n x tx ty xs ys) {d : Dim} {s s' : Supply}
    (hd : Makes ty.type.size s d s') : d = known ys.prod := by
  unfold TensorType.size at hd
  rw [h.outputShape] at hd
  exact product_known h.outputPos h.outputSized hd

theorem map_fst_tablesOf (op : Operator α) (xs : List Nat) :
    (op.tablesOf xs).map (·.1) = op.movementNames := by
  cases op <;> rfl

theorem map_filled (ns : List Nat) (m fill : Nat) :
    (ns ++ List.replicate m fill).map known = ns.map known ++ List.replicate m (known fill) := by
  rw [List.map_append, List.map_replicate]

/-- Bindings that hold the tables make a kernel provide them. -/
theorem Graph.MovesAt.tables_of_provides {entries : List (String × Binding α)} {m : Nat}
    (h : g.MovesAt o n x tx ty xs ys) (hp : k.Provides entries) (hkind : k.kind = n.op.kind)
    (hshape : ("y_shape", .ints ((ys ++ List.replicate m 1).map known)) ∈ entries)
    (hstride : ("x_stride", .ints ((strideList xs ++ List.replicate m 1).map known)) ∈ entries)
    (htables : ∀ e ∈ n.op.tablesOf xs,
      (e.1, .ints ((e.2 ++ List.replicate m (Glsl.neutralEntry e.1)).map known)) ∈ entries) :
    k.MovementTables n.op xs ys m := by
  have read : ∀ {name : String} {ns : List Nat}, (name, .ints (ns.map known)) ∈ entries →
      k.ints? name = some ns ∧ ∀ n ∈ ns, n < 0x80000000 := by
    intro name ns hm
    obtain ⟨hints, hfits⟩ := hp.ints hm
    rw [map_stored_known] at hints
    exact ⟨hints, fun n hn => hfits (known n) (List.mem_map_of_mem hn)⟩
  refine ⟨⟨hkind, (read hshape).1, (read hstride).1, h.aligned, fun e he =>
    (read (htables e he)).1⟩, fun name hname ns hns => ?_⟩
  have fits : ∀ ms : List Nat, (name, .ints (ms.map known)) ∈ entries → ∀ n ∈ ns, n < 0x80000000 := by
    intro ms hm
    obtain ⟨hints, hlt⟩ := read hm
    cases hns.symm.trans hints
    exact hlt
  rw [← map_fst_tablesOf n.op xs] at hname
  rcases List.mem_cons.1 hname with rfl | hname
  · exact fits _ hshape
  rcases List.mem_cons.1 hname with rfl | hname
  · exact fits _ hstride
  · obtain ⟨e, he, rfl⟩ := List.mem_map.1 hname
    exact fits _ (htables e he)

/-- A kernel over linear memory provides the tables. -/
theorem Linear.EmittedFor.movement {layout : MemoryLayout} (hk : Linear.EmittedFor layout g o k)
    (h : g.MovesAt o n x tx ty xs ys) :
    k.MovementTables n.op xs ys 0 ∧ k.loopRank? = some ys.length ∧
      k.loopSize? = some ys.prod ∧ ys.prod < 0x80000000 ∧ ∃ place input,
        layout.get? n.output = some place ∧ layout.get? x = some input ∧
        k.buffer? "y" = some place ∧ k.buffer? "x" = some input := by
  obtain ⟨⟨τ, c, entries, s, s', hg, hid, hnode, hentries, hprovides, -, hkind⟩, hstarts⟩ := hk
  have hmovement : Gives (Linear.movementBindings layout c) s entries s' := by
    unfold Linear.bindings at hentries
    split at hentries
    · next f hf =>
      obtain rfl : n = c.node := Option.some.inj (h.node.symm.trans hnode)
      exact absurd hf (h.notPointwise f)
    · exact hentries
  obtain ⟨b, a, place, input, strides, size, s₁, hb, ha, hplace, hinput, hstrides, hsize, rfl⟩ :=
    movementBindings_gives hmovement
  obtain ⟨rfl, rfl, rfl⟩ := h.operands hg hid hnode hb ha
  obtain rfl := h.strides hstrides
  obtain rfl := h.size hsize
  obtain ⟨hsize, hlt⟩ : k.int? "size" = some ys.prod ∧ ys.prod < 0x80000000 :=
    hprovides.int (x := known ys.prod) (by simp)
  obtain ⟨hrank, -⟩ : k.int? "rank" = some ty.type.rank ∧ _ :=
    hprovides.int (x := known ty.type.rank) (by simp)
  have hlen : ty.type.rank = ys.length := by
    rw [TensorType.rank, h.outputShape, List.length_map]
  rw [hlen] at hrank
  refine ⟨h.tables_of_provides hprovides hkind ?_ ?_ fun e he => ?_, ?_, ?_, hlt, place, input, hplace,
    hinput, hprovides.buffer (by simp), hprovides.buffer (by simp)⟩
  · simp [h.outputShape]
  · simp
  · rw [h.movementTables, List.map_map]
    refine List.mem_append_right _ (List.mem_map.2 ⟨e, he, ?_⟩)
    simp
  · unfold Kernel.loopRank?
    cases hstarts with
    | serial hl => rw [hl]; exact hrank
    | compute hl _ _ _ => rw [hl]; exact hrank
  · unfold Kernel.loopSize?
    cases hstarts with
    | serial hl => rw [hl]; exact hsize
    | compute hl _ _ _ => rw [hl]; exact hsize

theorem Glsl.filled_known (ns : List Nat) (fill : Nat) :
    filled fill (ns.map known) =
      (ns ++ List.replicate (maxRank - ns.length) fill).map known := by
  rw [filled, map_filled, List.length_map]

/-- So does a fragment kernel, whose tables have an entry for each of four axes. -/
theorem Glsl.EmittedFor.movement {target : Target} (hk : Glsl.EmittedFor target g o k)
    (h : g.MovesAt o n x tx ty xs ys) : ∃ m,
    k.MovementTables n.op xs ys m ∧ k.loopRank? = some (ys.length + m) ∧
      k.loopSize? = some ys.prod ∧ ys.prod < 0x80000000 ∧ ∃ t u,
        target.layout.get? n.output = some t ∧ target.layout.get? x = some u ∧
        k.launch = .fragment n.output t.shape ∧ k.int? "channels" = some target.channels ∧
        k.textureWidth? "y" = some t.shape.width ∧ k.sampler? "x" = some x ∧
        k.textureWidth? "x" = some u.shape.width := by
  obtain ⟨c, entries, s, s', b, t, hg, hid, hnode, rfl, hentries, hprovides, -, hkind, hb, ht,
    hlaunch⟩ := hk
  have hmovement : Gives (movementBindings c) s entries s' := by
    unfold Glsl.bindings at hentries
    split at hentries
    · next f hf =>
      obtain rfl : n = c.node := Option.some.inj (h.node.symm.trans hnode)
      exact absurd hf (h.notPointwise f)
    · exact hentries
  obtain ⟨b', a, t', u, strides, size, s₁, hb', ha, ht', hu, hsize, hstrides, hshape, -, -, rfl⟩ :=
    movementBindings_gives hmovement
  obtain rfl := Except.ok.inj (hb'.symm.trans hb)
  obtain rfl := Option.some.inj (ht'.symm.trans ht)
  obtain ⟨rfl, rfl, rfl⟩ := h.operands hg hid hnode hb ha
  obtain rfl := h.strides hstrides
  obtain rfl := h.size hsize
  obtain ⟨hsize, hlt⟩ : k.int? "y_size" = some ys.prod ∧ ys.prod < 0x80000000 :=
    hprovides.int (x := known ys.prod) (by simp [outputEntries])
  obtain ⟨hchannels, -⟩ : k.int? "channels" = some c.target.channels ∧ _ :=
    hprovides.int (x := known c.target.channels) (by simp [outputEntries])
  obtain ⟨hy, -⟩ : k.ints? "y_texture" =
      some ([known t'.shape.width, known t'.shape.height].map Dim.stored) ∧ _ :=
    hprovides.ints (by simp [outputEntries, extentBinding])
  obtain ⟨hx, -⟩ : k.ints? "x_texture" =
      some ([known u.shape.width, known u.shape.height].map Dim.stored) ∧ _ :=
    hprovides.ints (by simp [sampledEntries, extentBinding, textureName])
  have hrank : ys.length ≤ maxRank := by rwa [h.outputShape, List.length_map] at hshape
  refine ⟨maxRank - ys.length, h.tables_of_provides hprovides hkind ?_ ?_ fun e he => ?_, ?_, ?_, hlt,
    t', u, ht', hu, hlaunch, hchannels, ?_, hprovides.sampler (by simp [sampledEntries]), ?_⟩
  · rw [← filled_known, ← h.outputShape]
    simp
  · have hlen : (strideList xs).length = ys.length := by rw [length_strideList, h.moves.length]
    rw [← hlen, ← filled_known]
    simp
  · have hlen : e.2.length = ys.length := by rw [h.aligned e he, h.moves.length]
    rw [h.movementTables, List.map_map, ← hlen, ← filled_known]
    exact List.mem_append_right _ (List.mem_map.2 ⟨e, he, rfl⟩)
  · rw [Kernel.loopRank?, hlaunch]
    exact congrArg some (Nat.add_sub_cancel' hrank).symm
  · rw [Kernel.loopSize?, hlaunch]
    exact hsize
  · rw [Kernel.textureWidth?, textureName]
    exact hy ▸ rfl
  · rw [Kernel.textureWidth?, textureName]
    exact hx ▸ rfl

end

end TensorCompiler
