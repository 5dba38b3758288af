import TensorCompiler.Proofs.ComputedValues
import TensorCompiler.Proofs.TextureAddressing
/-!
# Loops over textures

A fragment kernel computes the scalars of the texels of its output. Its tables are filled up to four
axes of extent one, where every coordinate is zero, so its loop reads every operand where its
operator takes the element from.

* `axisWalk_filled`: the axes that fill the tables up add nothing.
* `Glsl.LoopFor`: what the loop of a fragment kernel does, in terms of its operator.
* `Glsl.EmittedFor.output`: what a fragment kernel knows about the texture of its output.
* `Glsl.EmittedFor.loop`: the loop of a fragment kernel whose operands have known sizes.
-/

namespace TensorCompiler

open Dim

/-! ## Tables of four entries -/

/-- The axes that fill the tables up add nothing. -/
theorem axisWalk_filled {shape strides : List Nat} (m : Nat) (hlen : strides.length = shape.length)
    (i index : Nat) : axisWalk (shape ++ List.replicate m 1) (along (strides ++ List.replicate m 1))
      (shape.length + m) i index = axisWalk shape (along strides) shape.length i index := by
  rw [axisWalk_pad m fun d hd hd' => ?_]
  · refine axisWalk_congr (fun _ _ => rfl) fun d hd c => ?_
    rw [along, along, List.getElem?_append_left (hlen ▸ hd)]
  · rw [along, Kernel.getElem?_filling (hlen ▸ hd) (hlen ▸ hd')]
    simp

namespace Glsl

/-- The loader reads a table with its neutral entries. -/
theorem map_stored_filled (neutral : Nat) (values : List Dim) :
    (filled neutral values).map Dim.stored =
      values.map Dim.stored ++ List.replicate (maxRank - values.length) neutral := by
  rw [filled, List.map_append, List.map_replicate]
  rfl

end Glsl

section

variable {α : Type} {k : Kernel α} {entries : List (String × Binding α)}

theorem Kernel.Provides.textureWidth (h : k.Provides entries) {name : String} {a : TextureAllocation}
    (hm : (Glsl.textureName name, Glsl.extentBinding a) ∈ entries) :
    k.textureWidth? name = some a.shape.width := by
  obtain ⟨hints, -⟩ : k.ints? (Glsl.textureName name) =
      some ([known a.shape.width, known a.shape.height].map Dim.stored) ∧ _ := h.ints hm
  rw [textureWidth?, hints]
  rfl

/-- Parameters have no dimensions, so they are read as they are. -/
theorem Kernel.Provides.parameters {f : Pointwise α} (h : k.Provides entries)
    (hm : ∀ e ∈ f.parameterBindings, e ∈ entries) :
    k.ProvidesAt known? f.parameterBindings := by
  intro name b hb
  obtain ⟨value, hvalue, hstored⟩ := h.value name b (hm _ hb)
  refine ⟨value, hvalue, ?_⟩
  cases f with
  | affine scale bias =>
    rcases List.mem_pair.1 hb with heq | heq
    all_goals
      cases heq
      exact hstored
  | _ => cases hb

end

/-! ## The loop of a fragment kernel -/

/-- The loop of a fragment kernel, in terms of its operator: it reads the operands in their textures
at the positions that the operator takes. -/
structure Glsl.LoopFor {α : Type} (target : Target) (op : Operator α) (y : Operand)
    (xs : List Operand) (k : Kernel α) : Prop where
  walks : k.Walks op maxRank y.type xs
  operand : ∀ name x, (name, x) ∈ op.kind.inputNames.zip xs → ∃ u,
    target.layout.get? x.var = some u ∧ k.sampler? name = some x.var ∧
      k.textureWidth? name = some u.shape.width

section

variable {α : Type} {k : Kernel α} {entries : List (String × Binding α)} {f : Pointwise α}
  {c : KernelContext α Glsl.Target} {y : Operand} {xs : List Operand} {s s' : Supply}

/-- What is stored of known dimensions are the dimensions themselves. -/
theorem readAs_stored {ds : List Dim} (h : ∀ d ∈ ds, ∃ n, d = known n) :
    ReadAs known? ds (ds.map Dim.stored) :=
  readAs_map fun d hd => by
    obtain ⟨n, rfl⟩ := h d hd
    rfl

/-- Filled tables of known sizes and strides walk an input that is broadcast to the output. -/
theorem Glsl.walk_filled {x y : TensorType} {ds : List Dim} {r r' : Supply}
    (hxknown : x.All fun d => ∃ n, d = known n) (hyknown : y.All fun d => ∃ n, d = known n)
    (hx : x.PositiveAt known?) (hy : y.PositiveAt known?) (hrank : y.shape.length ≤ maxRank)
    (hfit : x.BroadcastsAt known? y)
    (hds : Makes (y.dims.mapM (IterationOrder.strideAlong x)) r ds r') (i : Nat) :
    axisWalk ((filled 1 y.shape).map Dim.stored) (along ((filled 1 ds).map Dim.stored)) maxRank i 0 =
      some (offset x.order.axes (x.sizesAt known?)
        (coordinate y.order.axes (y.sizesAt known?) i)) := by
  have hys : y.shape.map Dim.stored = y.sizesAt known? :=
    (readAs_stored hyknown.shape).unique hy.readAs
  have hlen : (y.sizesAt known?).length = y.shape.length := hy.readAs.length_eq.symm
  have hdsknown : ∀ d ∈ ds, ∃ n, d = known n :=
    forall_of_makes_mapM (fun _ _ _ _ _ hd => hxknown.strideAlong ⟨0, rfl⟩ hd) hds
  have hdslen : ds.length = (y.sizesAt known?).length := by
    rw [length_of_makes_mapM hds, hlen, TensorType.dims, List.length_zip]
    exact Nat.min_eq_right (Nat.le_of_eq y.rank_eq)
  obtain ⟨m, hm⟩ : ∃ m, maxRank = (y.sizesAt known?).length + m :=
    Nat.exists_eq_add_of_le (hlen ▸ hrank)
  have hfill : maxRank - (y.sizesAt known?).length = m := by omega
  rw [map_stored_filled, map_stored_filled, hys, hdslen, ← hlen, hfill, hm,
    axisWalk_filled m (by rw [List.length_map, hdslen])]
  exact axisWalk_broadcast Dim.reads_known hx.readAs hy.readAs hfit hds (readAs_stored hdsknown)
    hy.pos i

theorem Glsl.loop_of_pointwise (h : Gives (Glsl.pointwiseBindings c f) s entries s')
    (hfits : (Operator.pointwise f).Fits (xs.map (·.type)) y.type) (hc : c.output = .ok y)
    (hxs : c.inputs = .ok xs) (hk : k.Provides entries) (hkind : k.kind = f.kind)
    (hknown : ∀ t ∈ y.type :: xs.map (·.type), t.All fun d => ∃ n, d = known n)
    (hpos : ∀ t ∈ y.type :: xs.map (·.type), t.PositiveAt known?)
    (hreads : ∀ x ∈ xs, x.type.BroadcastsAt known? y.type) :
    Glsl.LoopFor c.target (.pointwise f) y xs k := by
  obtain ⟨y', xs', order, padded, t, size, s₁, operands, hy, hinputs, horder, hpad, ht, hsize, hall,
    hentries⟩ := pointwiseBindings_gives h
  obtain rfl := Except.ok.inj (hc.symm.trans hy)
  obtain rfl := Except.ok.inj (hxs.symm.trans hinputs)
  obtain ⟨-, hshape, hstrides⟩ := unify_of_fits hfits horder
  obtain ⟨-, hrank, -, hpshape, hpstrides⟩ := pad_ok hpad
  obtain ⟨hypos, hxpos⟩ := List.forall_mem_cons.1 hpos
  obtain ⟨hyknown, hxknown⟩ := List.forall_mem_cons.1 hknown
  -- The loop runs over the shape of the output.
  obtain ⟨hextents, -⟩ : k.ints? "shape" = some (padded.shape.map Dim.stored) ∧ _ :=
    hk.ints (by simp [hentries])
  rw [hpshape, hshape] at hextents
  have operand : ∀ name x, (name, x) ∈ f.kind.inputNames.zip xs → ∃ ds u,
      (∃ r r', Makes (y.type.dims.mapM (IterationOrder.strideAlong x.type)) r ds r') ∧
      c.target.layout.get? x.var = some u ∧
      ∀ e ∈ sampledEntries name x.var u ++ [(strideName name, .ints (filled 1 ds))],
        e ∈ entries := by
    intro name x hx
    obtain ⟨ds, hmem, hds⟩ := exists_strides_of_unify hfits horder hx
    have hmem' : (name, x, filled 1 ds) ∈
        f.kind.inputNames.zip (xs.zip padded.strides.tail) := by
      rw [hpstrides, ← List.map_tail, List.zip_map_right, List.zip_map_right]
      exact List.mem_map_of_mem hmem
    obtain ⟨_, hpart, u, hu, rfl⟩ := exists_of_forall₂_left hall hmem'
    exact ⟨ds, u, hds, hu, fun e he => hentries ▸
      List.mem_append_left _ (List.mem_append_right _ (List.mem_flatten.2 ⟨_, hpart, he⟩))⟩
  refine ⟨⟨hkind, ?_, ?_, fun name x hx i => ?_⟩, fun name x hx => ?_⟩
  · rintro _ ⟨⟩
    exact pointwise?_of_provides hkind
      (hk.parameters fun e he => hentries ▸ List.mem_append_right _ he)
  · rw [← List.length_map (·.type), KernelContext.length_of_fits hfits]
  · obtain ⟨ds, u, ⟨r, r', hds⟩, hu, hentry⟩ := operand name x hx
    have hx' : x ∈ xs := (List.of_mem_zip hx).2
    obtain ⟨hstride, -⟩ : k.ints? (strideName name) = some ((filled 1 ds).map Dim.stored) ∧ _ :=
      hk.ints (hentry _ (by simp))
    rw [Kernel.readIndex?, if_pos (hkind ▸ isElementwise_pointwise f), hextents, hstride]
    have hmem := List.mem_map_of_mem (f := (·.type)) hx'
    exact walk_filled (hxknown _ hmem) hyknown (hxpos _ hmem) hypos (hshape ▸ hrank) (hreads x hx')
      hds i
  · obtain ⟨ds, u, -, hu, hentry⟩ := operand name x hx
    exact ⟨u, hu, hk.sampler (hentry _ (by simp [sampledEntries])),
      hk.textureWidth (hentry _ (by simp [sampledEntries]))⟩

end

section

variable {α : Type} [Scalar α] {g : Graph α} {fed : Values α} {o : OpId} {n : Node α}
  {y x : Operand} {xs : List Operand} {ds : List (Array α)} {d : Array α} {target : Glsl.Target}
  {k : Kernel α}

/-- A data movement with an element to move has operands of known positive sizes. -/
theorem Graph.ComputedFrom.movesAt (h : g.ComputedFrom fed o n y [x] ds d)
    (hn : g.node? o = some n) (hop : ∀ f, n.op ≠ .pointwise f) (hpos : 0 < d.size) : ∃ tx ty,
    g.MovesAt o n x.var tx ty x.type.sizes y.type.sizes ∧ y.var = n.output := by
  obtain ⟨ty, hty, rfl⟩ := h.output
  obtain ⟨ins, hins, hxs⟩ := h.inputs
  obtain ⟨v, vs, ⟨tx, htx, rfl⟩, hvs, rfl⟩ := List.forall₂_cons_right_iff.1 hxs
  cases hvs
  have hx := TensorType.shape_eq_of_isConcrete (h.concrete ⟨v, tx.type⟩ (by simp))
  have hy := TensorType.shape_eq_of_isConcrete (h.concrete ⟨n.output, ty.type⟩ (by simp))
  obtain ⟨hypos, hxpos⟩ := List.forall_mem_cons.1 (h.positive hpos)
  exact ⟨tx, ty, {
    node := hn
    notPointwise := hop
    reads := hins
    input := htx
    output := hty
    inputShape := hx
    outputShape := hy
    inputPos := (hxpos _ (List.mem_singleton_self _)).pos
    outputPos := hypos.pos
    inputSized := (h.checked ⟨v, tx.type⟩ (by simp)).sized _ hx
    outputSized := (h.checked ⟨n.output, ty.type⟩ (by simp)).sized _ hy
    fits := h.fits
    moves := (Operator.readsFrom_movement hop).1 (h.reads hpos _ (List.mem_singleton_self _)) },
    rfl⟩

theorem Glsl.loop_of_movement (hk : Glsl.EmittedFor target g o k)
    (h : g.ComputedFrom fed o n y xs ds d) (hn : g.node? o = some n)
    (hop : ∀ f, n.op ≠ .pointwise f) (hpos : 0 < d.size) :
    Glsl.LoopFor target n.op y xs k := by
  have hnames : n.op.kind.inputNames = ["x"] := inputNames_of_movement hop
  have harity : xs.length = 1 := by
    rw [← List.length_map (·.type), KernelContext.length_of_fits h.fits, OpKind.arity, hnames]
    rfl
  obtain ⟨x, rfl⟩ := List.length_eq_one_iff.1 harity
  obtain ⟨tx, ty, hmoves, -⟩ := h.movesAt hn hop hpos
  obtain ⟨m, htables, hrank, -, -, t, u, -, hu, hlaunch, -, -, hsampler, hwidth⟩ :=
    hk.movement hmoves
  have hm : maxRank = y.type.sizes.length + m := by
    rw [Kernel.loopRank?, hlaunch] at hrank
    exact Option.some.inj hrank
  refine ⟨⟨htables.kind, fun f hf => absurd hf (hop f), ?_, fun name x' hx' i => ?_⟩,
    fun name x' hx' => ?_⟩
  · rw [OpKind.arity, hnames]
    rfl
  · obtain ⟨rfl, rfl⟩ := operand_of_movement hop hx'
    have helementwise : k.kind.isElementwise = false :=
      htables.kind ▸ not_isElementwise_movement hop
    have hwalk := htables.axisWalk_eq hmoves.moves hmoves.inputPos hmoves.outputPos i
    rw [Kernel.readIndex?, helementwise, htables.shape, strideName, htables.strides, hm,
      Operator.sourceAt_movement hop]
    exact hwalk
  · obtain ⟨rfl, rfl⟩ := operand_of_movement hop hx'
    exact ⟨u, hu, hsampler, hwidth⟩

/-- A kernel knows the texture of its output, and how many elements there are. -/
theorem Glsl.EmittedFor.output (hk : Glsl.EmittedFor target g o k)
    (h : g.ComputedFrom fed o n y xs ds d) (hn : g.node? o = some n) : ∃ t,
    target.layout.get? y.var = some t ∧ k.launch = .fragment y.var t.shape ∧
      k.int? "channels" = some target.channels ∧ k.textureWidth? "y" = some t.shape.width ∧
      k.int? "y_size" = some d.size := by
  obtain ⟨c, entries, s, s', b, t, rfl, rfl, hnode, rfl, hentries, hprovides, -, hkind, hb, ht,
    hlaunch⟩ := hk
  obtain rfl := Option.some.inj (hn.symm.trans hnode)
  obtain rfl := Except.ok.inj (h.ready.output.symm.trans hb)
  obtain ⟨size, r, r', hsize, hmem⟩ : ∃ size r r', Makes y.type.size r size r' ∧
      ∀ e ∈ outputEntries c.target.channels t size, e ∈ entries := by
    unfold Glsl.bindings at hentries
    split at hentries
    · obtain ⟨y', xs', order, padded, t', size, s₁, operands, hy, -, -, -, ht', hsize, -, rfl⟩ :=
        pointwiseBindings_gives hentries
      obtain rfl := Except.ok.inj (hb.symm.trans hy)
      obtain rfl := Option.some.inj (ht.symm.trans ht')
      exact ⟨size, s₁, s', hsize, fun e he => by simp [he]⟩
    · obtain ⟨y', x, t', u, strides, size, s₁, hy, -, ht', -, hsize, -, -, -, -, rfl⟩ :=
        movementBindings_gives hentries
      obtain rfl := Except.ok.inj (hb.symm.trans hy)
      obtain rfl := Option.some.inj (ht.symm.trans ht')
      exact ⟨size, s, s₁, hsize, fun e he => by simp [he]⟩
  have hshape := TensorType.shape_eq_of_isConcrete (h.concrete y (List.mem_cons_self ..))
  have hchecked := h.checked y (List.mem_cons_self ..)
  rw [TensorType.size, hshape] at hsize
  obtain rfl := product_of_checked (hshape ▸ hchecked) hsize
  obtain ⟨hchannels, -⟩ : k.int? "channels" = some c.target.channels ∧ _ :=
    hprovides.int (x := known c.target.channels) (hmem _ (by simp [outputEntries]))
  obtain ⟨hcount, -⟩ : k.int? "y_size" = some y.type.sizes.prod ∧ _ :=
    hprovides.int (x := known y.type.sizes.prod) (hmem _ (by simp [outputEntries]))
  exact ⟨t, ht, hlaunch, hchannels, hprovides.textureWidth (hmem _ (by simp [outputEntries,
    textureName])), h.size ▸ hcount⟩

/-- If there is an element to compute, then the loop of a kernel is the one of its operator. -/
theorem Glsl.EmittedFor.loop (hk : Glsl.EmittedFor target g o k)
    (h : g.ComputedFrom fed o n y xs ds d) (hn : g.node? o = some n) (hpos : 0 < d.size) :
    Glsl.LoopFor target n.op y xs k := by
  by_cases hop : ∃ f, n.op = .pointwise f
  · obtain ⟨f, hop⟩ := hop
    obtain ⟨c, entries, s, s', b, t, rfl, rfl, hnode, rfl, hentries, hprovides, -, hkind, -⟩ := hk
    obtain rfl := Option.some.inj (hn.symm.trans hnode)
    have hready := h.ready
    have hreads := h.reads hpos
    have hfits := h.fits
    rw [Glsl.bindings, hop] at hentries
    rw [hop] at hkind hreads hfits ⊢
    exact loop_of_pointwise hentries hfits hready.output hready.inputs hprovides hkind
      (h.all_known hpos) (h.positive hpos) hreads
  · rw [not_exists] at hop
    exact loop_of_movement hk h hn hop hpos

end

end TensorCompiler
