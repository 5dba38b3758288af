import TensorCompiler.Proofs.Emission
import TensorCompiler.Proofs.Grounding
import TensorCompiler.Proofs.StaticSpace
/-!
# No kernel reads an uninitialised value

Compilation simplifies a graph and emits one kernel for each operator that is left. If every leaf
that the outputs of the graph depend on is an input or a constant, each buffer and each sampler
that a kernel reads belongs to a declared input, to a constant, or to the output of a kernel in
front of it.

The condition is not checked by compilation. A leaf that is neither an input nor a constant is
accepted, and a kernel reads it although nothing was ever written there.

* `Layout.Places`, `Layout.Writes`: where a kernel finds a variable, and where it leaves one.
* `Linear.EmittedFor.reads`, `Glsl.EmittedFor.reads`: a kernel reads the operands of its operator.
* `compile_gives`: compilation generates from a simplified graph.
* `reads_initialized_of_compile`: the theorem about whole descriptors.
-/

namespace TensorCompiler

variable {α : Type}

/-! ## The places of variables -/

/-- The runtime has to provide memory or a texture for this. -/
def BoundValue.IsData : BoundValue α → Prop
  | .buffer _ | .sampler .. => True
  | _ => False

/-- What a kernel is given as the place of a variable. -/
def Layout.Places : Layout → VarId → BoundValue α → Prop
  | .memory layout, v, .buffer a => layout.get? v = some a
  | .texture layout, v, .sampler w _ => w = v ∧ ∃ t, layout.get? v = some t
  | _, _, _ => False

/-- A kernel leaves its result in the place of a variable. -/
def Layout.Writes (layout : Layout) (k : Kernel α) (v : VarId) : Prop :=
  match layout with
  | .memory layout => ∃ a, layout.get? v = some a ∧ ⟨"y", .buffer a⟩ ∈ k.bindings
  | .texture layout => ∃ t, layout.get? v = some t ∧ k.launch = .fragment v t.shape

/-- A kernel of an operator on these inputs reads their places under the names of the operands,
nothing else but these, and leaves its result in the place of the output. -/
structure Kernel.ReadsOperands (layout : Layout) (k : Kernel α) (kind : OpKind) (ins : List VarId)
    (output : VarId) : Prop where
  reads : ∀ entry ∈ k.bindings, entry.value.IsData → entry.name ≠ "y" →
    ∃ v, (entry.name, v) ∈ kind.inputNames.zip ins ∧ layout.Places v entry.value
  all : ∀ name v, (name, v) ∈ kind.inputNames.zip ins →
    ∃ value, ⟨name, value⟩ ∈ k.bindings ∧ layout.Places v value
  writes : layout.Writes k output

/-! ## The bindings of a kernel -/

/-- What may be bound to an operand. -/
inductive Binding.IsData : Binding α → Prop
  | buffer (a : Allocation) : IsData (.buffer a)
  | sampler (v : VarId) : IsData (.sampler v)

theorem Binding.Stored.isData {b : Binding α} {table : MetaTable} {value : BoundValue α}
    (h : b.Stored table value) (hvalue : value.IsData) : b.IsData := by
  cases b with
  | buffer a => exact .buffer a
  | sampler v => exact .sampler v
  | int x =>
    cases value with
    | buffer a => cases h.1
    | sampler v unit => cases h.1
    | _ => cases hvalue
  | ints xs =>
    cases value with
    | buffer a => cases h.1
    | sampler v unit => cases h.1
    | _ => cases hvalue
  | float x =>
    cases value with
    | buffer a => cases h
    | sampler v unit => cases h
    | _ => cases hvalue

theorem mem_zip_of_zip_zip {β γ δ : Type} {xs : List β} {ys : List γ} {zs : List δ} {x : β} {y : γ}
    {z : δ} (h : (x, y, z) ∈ xs.zip (ys.zip zs)) : (x, y) ∈ xs.zip ys := by
  obtain ⟨i, hi⟩ := List.mem_iff_getElem?.1 h
  obtain ⟨hx, hyz⟩ := List.getElem?_zip_eq_some.1 hi
  obtain ⟨hy, -⟩ := List.getElem?_zip_eq_some.1 hyz
  exact List.mem_iff_getElem?.2 ⟨i, List.getElem?_zip_eq_some.2 ⟨hx, hy⟩⟩

theorem exists_mem_zip_zip {β γ δ : Type} {xs : List β} {ys : List γ} {zs : List δ} {x : β} {y : γ}
    (hlen : ys.length ≤ zs.length) (h : (x, y) ∈ xs.zip ys) : ∃ z, (x, y, z) ∈ xs.zip (ys.zip zs) := by
  obtain ⟨i, hi⟩ := List.mem_iff_getElem?.1 h
  obtain ⟨hx, hy⟩ := List.getElem?_zip_eq_some.1 hi
  have hz := List.getElem?_eq_getElem ((List.getElem?_eq_some_iff.1 hy).1.trans_le hlen)
  exact ⟨_, List.mem_iff_getElem?.2 ⟨i, List.getElem?_zip_eq_some.2
    ⟨hx, List.getElem?_zip_eq_some.2 ⟨hy, hz⟩⟩⟩⟩

/-- The operands of an operator are its inputs. -/
theorem exists_inputsOf {τ : Type} {c : KernelContext α τ} {xs : List Operand}
    (h : c.inputs = .ok xs) : c.graph.inputsOf c.id = .ok (xs.map Operand.var) := by
  obtain ⟨ins, hins, hall⟩ := inputs_ok_iff.1 h
  rw [hins, ← eq_map_of_forall₂ (hall.flip.imp fun x v ⟨t, _, e⟩ => (e ▸ rfl : v = x.var))]

theorem mem_zip_vars {xs : List Operand} {names : List String} {name : String} {v : VarId} :
    (name, v) ∈ names.zip (xs.map Operand.var) ↔ ∃ x, (name, x) ∈ names.zip xs ∧ x.var = v := by
  rw [List.zip_map_right, List.mem_map]
  constructor
  · rintro ⟨⟨name', x⟩, hmem, e⟩
    obtain ⟨rfl, rfl⟩ := Prod.mk.inj e
    exact ⟨x, hmem, rfl⟩
  · rintro ⟨x, hmem, rfl⟩
    exact ⟨_, hmem, rfl⟩

/-- The output of an operator stands for itself. -/
theorem output_var {τ : Type} {c : KernelContext α τ} {y : Operand} {t : Tensor α}
    {p : Option OpId} (hslot : c.graph.slot? c.node.output = some (.live t p))
    (hy : c.output = .ok y) : y.var = c.node.output := by
  obtain ⟨v, _, hv, -, rfl⟩ := output_ok_iff.1 hy
  exact (Except.ok.inj ((Graph.resolve_of_live hslot).symm.trans hv)).symm

theorem not_isData_of_parameterBindings {f : Pointwise α} {name : String} {b : Binding α}
    (h : (name, b) ∈ f.parameterBindings) : ¬b.IsData := by
  cases f with
  | affine scale bias =>
    rcases List.mem_cons.1 h with h | h
    · cases h
      rintro ⟨⟩
    · cases List.mem_singleton.1 h
      rintro ⟨⟩
  | _ => cases h

/-- A data movement has one operand. -/
theorem inputNames_of_movement {op : Operator α} (h : ∀ f, op = .pointwise f → False) :
    op.kind.inputNames = ["x"] := by
  cases op with
  | pointwise f => exact (h f rfl).elim
  | _ => rfl

theorem operand_of_movement {op : Operator α} (h : ∀ f, op = .pointwise f → False) {name : String}
    {x x' : Operand} (hx : (name, x') ∈ op.kind.inputNames.zip [x]) : name = "x" ∧ x' = x := by
  rw [inputNames_of_movement h] at hx
  exact Prod.mk.inj (List.mem_singleton.1 hx)

/-- Among the bindings of a kernel over linear memory, the operands and the output have places. -/
theorem Linear.places_of_bindings {τ : Type} {layout : MemoryLayout} {c : KernelContext α τ}
    {entries : List (String × Binding α)} {s s' : Supply}
    (h : Gives (Linear.bindings layout c) s entries s') : ∃ y place xs, c.output = .ok y ∧
      layout.get? y.var = some place ∧ ("y", .buffer place) ∈ entries ∧ c.inputs = .ok xs ∧
      (∀ name b, (name, b) ∈ entries → b.IsData → name ≠ "y" → ∃ x a,
        (name, x) ∈ c.node.op.kind.inputNames.zip xs ∧ layout.get? x.var = some a ∧
        b = .buffer a) ∧
      ∀ name x, (name, x) ∈ c.node.op.kind.inputNames.zip xs →
        ∃ a, layout.get? x.var = some a ∧ (name, .buffer a) ∈ entries := by
  unfold Linear.bindings at h
  split at h
  · next f hop =>
    obtain ⟨y, xs, order, place, size, _, operands, hy, hxs, horder, hplace, -, hall, rfl⟩ :=
      pointwiseBindings_gives h
    refine ⟨y, place, xs, hy, hplace, List.mem_append_left _ (.head _), hxs,
      fun name b hb hdata hne => ?_, fun name x hx => ?_⟩
    · rcases List.mem_append.1 hb with hb | hb
      · rcases List.mem_append.1 hb with hb | hb
        · simp only [List.mem_cons, Prod.mk.injEq, List.not_mem_nil, or_false] at hb
          rcases hb with ⟨rfl, rfl⟩ | ⟨-, rfl⟩ | ⟨-, rfl⟩ | ⟨-, rfl⟩ | ⟨-, rfl⟩
          · exact absurd rfl hne
          all_goals cases hdata
        · obtain ⟨part, hpart, hb⟩ := List.mem_flatten.1 hb
          obtain ⟨⟨name', x, strides⟩, hmem, a, ha, rfl⟩ := exists_of_forall₂_right hall hpart
          simp only [operandBindings, List.mem_cons, Prod.mk.injEq, List.not_mem_nil,
            or_false] at hb
          rcases hb with ⟨rfl, rfl⟩ | ⟨-, rfl⟩
          · rw [hop]
            exact ⟨x, a, mem_zip_of_zip_zip hmem, ha, rfl⟩
          · cases hdata
      · exact absurd hdata (not_isData_of_parameterBindings hb)
    · have hlen : xs.length ≤ order.strides.tail.length := by
        simp [length_strides_of_unify horder]
      rw [hop] at hx
      obtain ⟨strides, hmem⟩ := exists_mem_zip_zip hlen hx
      obtain ⟨_, hpart, a, ha, rfl⟩ := exists_of_forall₂_left hall hmem
      exact ⟨a, ha, List.mem_append_left _ (List.mem_append_right _
        (List.mem_flatten.2 ⟨_, hpart, .head _⟩))⟩
  · next hop =>
    obtain ⟨y, x, place, input, strides, size, _, hy, hxs, hplace, hinput, -, -, rfl⟩ :=
      movementBindings_gives h
    have hnames : c.node.op.kind.inputNames = ["x"] := inputNames_of_movement hop
    rw [hnames]
    refine ⟨y, place, [x], hy, hplace, List.mem_append_left _ (.head _), hxs,
      fun name b hb hdata hne => ?_, fun name x' hx => ?_⟩
    · rcases List.mem_append.1 hb with hb | hb
      · simp only [List.mem_cons, Prod.mk.injEq, List.not_mem_nil, or_false] at hb
        rcases hb with ⟨rfl, rfl⟩ | ⟨rfl, rfl⟩ | ⟨-, rfl⟩ | ⟨-, rfl⟩ | ⟨-, rfl⟩ | ⟨-, rfl⟩
        · exact absurd rfl hne
        · exact ⟨x, input, .head _, hinput, rfl⟩
        all_goals cases hdata
      · obtain ⟨e, -, he⟩ := List.mem_map.1 hb
        cases he
        cases hdata
    · obtain ⟨rfl, rfl⟩ := Prod.mk.inj (List.mem_singleton.1 hx)
      exact ⟨input, hinput, List.mem_append_left _ (.tail _ (.head _))⟩

theorem Glsl.not_isData_of_outputEntries {channels : Nat} {t : TextureAllocation} {size : Dim}
    {name : String} {b : Binding α} (hb : (name, b) ∈ outputEntries channels t size) :
    ¬b.IsData := by
  simp only [outputEntries, extentBinding, List.mem_cons, Prod.mk.injEq, List.not_mem_nil,
    or_false] at hb
  rcases hb with ⟨-, rfl⟩ | ⟨-, rfl⟩ | ⟨-, rfl⟩ <;> rintro ⟨⟩

/-- Of the entries of a sampled operand, only the sampler is data. -/
theorem Glsl.eq_of_sampledEntries {v : VarId} {t : TextureAllocation} {operand name : String}
    {b : Binding α} (hb : (name, b) ∈ sampledEntries operand v t) (hdata : b.IsData) :
    name = operand ∧ b = .sampler v := by
  simp only [sampledEntries, extentBinding, List.mem_cons, Prod.mk.injEq, List.not_mem_nil,
    or_false] at hb
  rcases hb with ⟨rfl, rfl⟩ | ⟨-, rfl⟩
  · exact ⟨rfl, rfl⟩
  · cases hdata

/-- Among the bindings of a fragment kernel, the operands and nothing else are sampled. -/
theorem Glsl.places_of_bindings {c : KernelContext α Target} {entries : List (String × Binding α)}
    {s s' : Supply} (h : Gives (Glsl.bindings c) s entries s') : ∃ xs, c.inputs = .ok xs ∧
      (∀ name b, (name, b) ∈ entries → b.IsData → ∃ x t,
        (name, x) ∈ c.node.op.kind.inputNames.zip xs ∧ c.target.layout.get? x.var = some t ∧
        b = .sampler x.var) ∧
      ∀ name x, (name, x) ∈ c.node.op.kind.inputNames.zip xs →
        (∃ t, c.target.layout.get? x.var = some t) ∧ (name, .sampler x.var) ∈ entries := by
  unfold Glsl.bindings at h
  split at h
  · next f hop =>
    obtain ⟨y, xs, order, padded, t, size, _, operands, -, hxs, horder, hpad, -, -, hall, rfl⟩ :=
      pointwiseBindings_gives h
    refine ⟨xs, hxs, fun name b hb hdata => ?_, fun name x hx => ?_⟩
    · rcases List.mem_append.1 hb with hb | hb
      · rcases List.mem_append.1 hb with hb | hb
        · rcases List.mem_append.1 hb with hb | hb
          · exact absurd hdata (not_isData_of_outputEntries hb)
          · cases List.mem_singleton.1 hb
            cases hdata
        · obtain ⟨part, hpart, hb⟩ := List.mem_flatten.1 hb
          obtain ⟨⟨name', x, strides⟩, hmem, u, hu, rfl⟩ := exists_of_forall₂_right hall hpart
          rcases List.mem_append.1 hb with hb | hb
          · obtain ⟨rfl, rfl⟩ := eq_of_sampledEntries hb hdata
            rw [hop]
            exact ⟨x, u, mem_zip_of_zip_zip hmem, hu, rfl⟩
          · cases List.mem_singleton.1 hb
            cases hdata
      · exact absurd hdata (not_isData_of_parameterBindings hb)
    · have hlen : xs.length ≤ padded.strides.tail.length := by
        simp [(pad_ok hpad).2.2.2.2, length_strides_of_unify horder]
      rw [hop] at hx
      obtain ⟨strides, hmem⟩ := exists_mem_zip_zip hlen hx
      obtain ⟨_, hpart, u, hu, rfl⟩ := exists_of_forall₂_left hall hmem
      exact ⟨⟨u, hu⟩, List.mem_append_left _ (List.mem_append_right _
        (List.mem_flatten.2 ⟨_, hpart, .head _⟩))⟩
  · next hop =>
    obtain ⟨y, x, t, u, strides, size, _, -, hxs, -, hu, -, -, -, -, -, rfl⟩ :=
      movementBindings_gives h
    rw [inputNames_of_movement hop]
    refine ⟨[x], hxs, fun name b hb hdata => ?_, fun name x' hx => ?_⟩
    · rcases List.mem_append.1 hb with hb | hb
      · rcases List.mem_append.1 hb with hb | hb
        · rcases List.mem_append.1 hb with hb | hb
          · exact absurd hdata (not_isData_of_outputEntries hb)
          · simp only [List.mem_cons, Prod.mk.injEq, List.not_mem_nil, or_false] at hb
            rcases hb with ⟨-, rfl⟩ | ⟨-, rfl⟩ <;> cases hdata
        · obtain ⟨rfl, rfl⟩ := eq_of_sampledEntries hb hdata
          exact ⟨x, u, .head _, hu, rfl⟩
      · obtain ⟨e, -, he⟩ := List.mem_map.1 hb
        cases he
        cases hdata
    · obtain ⟨rfl, rfl⟩ := Prod.mk.inj (List.mem_singleton.1 hx)
      exact ⟨⟨u, hu⟩, List.mem_append_left _ (List.mem_append_right _ (.head _))⟩

/-! ## Emitted kernels -/

section

variable {g : Graph α} {o : OpId} {k : Kernel α} {t : Tensor α} {p : Option OpId} {n : Node α}

/-- What stands for a buffer is that buffer. -/
theorem eq_buffer_of_stored {table : MetaTable} {value : BoundValue α} {a : Allocation}
    (h : (Binding.buffer a).Stored table value) : value = .buffer a := by
  cases value with
  | buffer b => exact congrArg BoundValue.buffer (Option.some.inj h)
  | _ => cases h

theorem exists_sampler_of_stored {table : MetaTable} {value : BoundValue α} {v : VarId}
    (h : (Binding.sampler v).Stored table value) : ∃ unit, value = .sampler v unit := by
  cases value with
  | sampler w unit => exact ⟨unit, congrArg (BoundValue.sampler · unit) (Option.some.inj h)⟩
  | _ => cases h

theorem Kernel.mem_of_value? {name : String} {value : BoundValue α}
    (h : k.value? name = some value) : ⟨name, value⟩ ∈ k.bindings := by
  obtain ⟨entry, hentry, rfl⟩ := Option.map_eq_some_iff.1 h
  have hname : entry.name = name := of_decide_eq_true (List.find?_some hentry :)
  exact hname ▸ List.mem_of_find?_eq_some hentry

theorem Linear.EmittedFor.reads {layout : MemoryLayout} (h : Linear.EmittedFor layout g o k)
    (hn : g.node? o = some n) (hslot : g.slot? n.output = some (.live t p)) :
    ∃ ins, g.inputsOf o = .ok ins ∧
      k.ReadsOperands (.memory layout) n.op.kind ins n.output := by
  obtain ⟨τ, c, entries, s, s', rfl, rfl, hnode, hgives, hprovides, -, -⟩ := h.emitted
  obtain rfl := Option.some.inj (hn.symm.trans hnode)
  obtain ⟨y, place, xs, hy, hplace, hout, hxs, hall, hread⟩ := places_of_bindings hgives
  refine ⟨_, exists_inputsOf hxs, fun entry he hdata hne => ?_, fun name v hv => ?_, ?_⟩
  · obtain ⟨b, hb, hstored⟩ := hprovides.only entry he
    have hdata := hstored.isData hdata
    rcases hb with hb | ⟨x, rfl⟩
    · obtain ⟨x, a, hx, ha, rfl⟩ := hall _ b hb hdata hne
      rw [eq_buffer_of_stored hstored]
      exact ⟨x.var, mem_zip_vars.2 ⟨x, hx, rfl⟩, ha⟩
    · cases hdata
  · obtain ⟨x, hx, rfl⟩ := mem_zip_vars.1 hv
    obtain ⟨a, ha, hentry⟩ := hread name x hx
    obtain ⟨value, hvalue, hstored⟩ := hprovides.value _ _ hentry
    rw [eq_buffer_of_stored hstored] at hvalue
    exact ⟨_, k.mem_of_value? hvalue, ha⟩
  · obtain ⟨value, hvalue, hstored⟩ := hprovides.value _ _ hout
    rw [eq_buffer_of_stored hstored] at hvalue
    exact ⟨place, output_var hslot hy ▸ hplace, k.mem_of_value? hvalue⟩

theorem Glsl.EmittedFor.reads {target : Target} (h : Glsl.EmittedFor target g o k)
    (hn : g.node? o = some n) (hslot : g.slot? n.output = some (.live t p)) :
    ∃ ins, g.inputsOf o = .ok ins ∧
      k.ReadsOperands (.texture target.layout) n.op.kind ins n.output := by
  obtain ⟨c, entries, s, s', y, u, rfl, rfl, hnode, rfl, hgives, hprovides, -, -, hy, hu,
    hlaunch⟩ := h
  obtain rfl := Option.some.inj (hn.symm.trans hnode)
  obtain ⟨xs, hxs, hall, hread⟩ := places_of_bindings hgives
  have hvar := output_var hslot hy
  refine ⟨_, exists_inputsOf hxs, fun entry he hdata _ => ?_, fun name v hv => ?_, u, hvar ▸ hu,
    hvar ▸ hlaunch⟩
  · obtain ⟨b, hb, hstored⟩ := hprovides.only entry he
    have hdata := hstored.isData hdata
    rcases hb with hb | ⟨x, rfl⟩
    · obtain ⟨x, t, hx, ht, rfl⟩ := hall _ b hb hdata
      obtain ⟨unit, e⟩ := exists_sampler_of_stored hstored
      rw [e]
      exact ⟨x.var, mem_zip_vars.2 ⟨x, hx, rfl⟩, rfl, t, ht⟩
    · cases hdata
  · obtain ⟨x, hx, rfl⟩ := mem_zip_vars.1 hv
    obtain ⟨ht, hentry⟩ := hread name x hx
    obtain ⟨value, hvalue, hstored⟩ := hprovides.value _ _ hentry
    obtain ⟨unit, rfl⟩ := exists_sampler_of_stored hstored
    exact ⟨_, k.mem_of_value? hvalue, rfl, ht⟩

end

/-- One kernel for each operator of the traversal, which reads the operands of that operator. -/
theorem readsOperands_of_generate [Scalar α] [ScalarText α] {g : Graph α}
    {kind : BackendKind} {config : Config} {d : Descriptor α} {s s' : Supply} (hg : g.Wellformed)
    (h : Gives (g.generate kind config) s d s') : ∃ ops, g.topologicalOrder = .ok ops ∧
      List.Forall₂ (fun o k => ∃ n ins, g.node? o = some n ∧ g.inputsOf o = .ok ins ∧
        k.ReadsOperands d.layout n.op.kind ins n.output) ops d.kernels := by
  have computes : ∀ {ops : List OpId}, g.topologicalOrder = .ok ops → ∀ o ∈ ops, g.Computes o :=
    fun hops o ho => Graph.output_of_mem_topologicalOrder hg hops ho
  by_cases hkind : kind = .webGl
  · subst hkind
    obtain ⟨layout, ops, -, -, hops, hall, hlayout, -⟩ := generate_texture h
    refine ⟨ops, hops, hlayout ▸ ((List.forall₂_and_left _ _).2 ⟨computes hops, hall⟩).imp ?_⟩
    rintro o k ⟨⟨n, t, hn, hslot, -⟩, hk⟩
    obtain ⟨ins, hins, hreads⟩ := hk.reads hn hslot
    exact ⟨n, ins, hn, hins, hreads⟩
  · obtain ⟨layout, ops, _, -, hops, hall, hlayout, -⟩ := generate_linear hkind h
    refine ⟨ops, hops, hlayout ▸ ((List.forall₂_and_left _ _).2 ⟨computes hops, hall⟩).imp ?_⟩
    rintro o k ⟨⟨n, t, hn, hslot, -⟩, hk⟩
    obtain ⟨ins, hins, hreads⟩ := hk.reads hn hslot
    exact ⟨n, ins, hn, hins, hreads⟩

/-! ## Compilation -/

namespace Graph

variable [Scalar α] {g : Graph α} {config : Config} {s s' : Supply}

/-- A graph is prepared by the passes, and valid then. -/
theorem prepare_gives {g' : Graph α} (h : Gives (g.prepare config) s g' s') :
    (∃ ops, g.topologicalOrder = .ok ops) ∧ (∃ c, (simplify config).run.Edits g s c g' s') ∧
      g'.validate = .ok () := by
  cases hops : g.topologicalOrder with
  | error e =>
    unfold Gives prepare at h
    rw [hops] at h
    cases h
  | ok ops =>
    unfold Gives prepare at h
    rw [hops] at h
    obtain ⟨⟨result, g₁⟩, s₁, hrun, h⟩ := makes_bind_iff.1 h
    cases result with
    | error e =>
      obtain ⟨⟨⟩, -⟩ := makes_pure_iff.1 h
    | ok c =>
      obtain ⟨hvalid, rfl⟩ := makes_pure_iff.1 h
      have hvalid := mapError_ok_iff.1 hvalid
      cases hvalidate : g₁.validate with
      | error e =>
        rw [hvalidate] at hvalid
        cases hvalid
      | ok u =>
        rw [hvalidate] at hvalid
        cases hvalid
        exact ⟨⟨ops, rfl⟩, ⟨c, hrun⟩, hvalidate⟩

theorem gives_prepare {g' : Graph α} {ops : List OpId} {c : Bool}
    (hops : g.topologicalOrder = .ok ops) (hedit : (simplify config).run.Edits g s c g' s')
    (hvalid : g'.validate = .ok ()) : Gives (g.prepare config) s g' s' := by
  unfold Gives prepare
  rw [hops]
  exact makes_bind_iff.2 ⟨(.ok c, g'), s', hedit, makes_pure_iff.2 ⟨by rw [hvalid]; rfl, rfl⟩⟩

/-- A compilation fails if the graph cannot be prepared, and for no other reason. -/
theorem exists_raises_compile_iff [ScalarText α] {backends : List BackendKind} :
    (∃ e, Raises (g.compile backends config) s e) ↔
      ¬∃ g' s', Gives (g.prepare config) s g' s' := by
  rw [← exists_raises_iff]
  constructor
  · rintro ⟨e, he⟩
    rcases raises_bind_iff.1 he with he | ⟨g', s₁, -, he⟩
    · exact ⟨e, he⟩
    · -- What a backend fails with is part of the result.
      obtain ⟨kind, -, s₂, he⟩ := exists_of_raises_mapM he
      rcases raises_bind_iff.1 he with he | ⟨outcome, s₃, -, he⟩
      · exact (raises_fresh_iff.1 he).elim
      · exact (raises_pure_iff.1 he).elim
  · rintro ⟨e, he⟩
    exact ⟨e, raises_bind_iff.2 (.inl he)⟩

/-- Each descriptor of a compilation is generated from the prepared graph. -/
theorem compile_gives [ScalarText α] {backends : List BackendKind}
    {results : List (BackendKind × Except GenerateError (Descriptor α))}
    (h : Gives (g.compile backends config) s results s') : ∃ g' s₁,
      Gives (g.prepare config) s g' s₁ ∧ ∀ kind d, (kind, .ok d) ∈ results →
        ∃ r r', Gives (g'.generate kind config) r d r' := by
  obtain ⟨g', s₁, hprepare, h⟩ := gives_bind_iff.1 h
  refine ⟨g', s₁, hprepare, fun kind d hd => ?_⟩
  obtain ⟨kind', -, r, r', hkind⟩ := exists_of_forall₂_right (forall₂_of_gives_mapM h) hd
  obtain ⟨outcome, r₁, hrun, hpair⟩ := gives_bind_iff.1 hkind
  obtain ⟨hpair, -⟩ := gives_pure_iff.1 hpair
  obtain ⟨rfl, rfl⟩ := Prod.mk.inj hpair
  exact ⟨r, r₁, gives_fresh_iff.1 hrun⟩

end Graph

/-! ## Values that are there -/

/-- A variable has a value before the kernel at this position runs: it is fed, or constant, or the
result of an operator whose kernel comes earlier. -/
inductive Descriptor.Initialized (d : Descriptor α) (g : Graph α) (ops : List OpId) (i : Nat)
    (v : VarId) : Prop
  | input : v ∈ g.inputs → Initialized d g ops i v
  | constant {t : Tensor α} {data : Array α} : g.tensor v = .ok t → t.data = some data →
      Initialized d g ops i v
  | computed {j : Nat} {o : OpId} {n : Node α} {k : Kernel α} : j < i → ops[j]? = some o →
      g.operator o = .ok n → n.output = v → d.kernels[j]? = some k → d.layout.Writes k v →
      Initialized d g ops i v

namespace Graph

variable [Scalar α] [ScalarText α] {g : Graph α} {config : Config} {s₀ s s' : Supply}
  {backends : List BackendKind} {kind : BackendKind} {d : Descriptor α}
  {results : List (BackendKind × Except GenerateError (Descriptor α))}

/-- Where the outputs of a graph depend on no other leaves than inputs and constants, the kernels
that are emitted for it read nothing that was not written: whatever a kernel reads is the place of
an operand, and that is an input of the simplified graph, a constant, or the output of an earlier
kernel. -/
theorem reads_initialized_of_compile (hr : Reached s₀ g) (hb : g.Bound)
    (h : Gives (g.compile backends config) s results s') (hd : (kind, .ok d) ∈ results) :
    ∃ g' r ops, Gives (g.prepare config) s g' r ∧ g'.topologicalOrder = .ok ops ∧
      d.kernels.length = ops.length ∧ ∀ i o k, ops[i]? = some o → d.kernels[i]? = some k →
        ∃ n ins, g'.operator o = .ok n ∧ g'.inputsOf o = .ok ins ∧ d.layout.Writes k n.output ∧
          ∀ entry ∈ k.bindings, entry.value.IsData → entry.name ≠ "y" →
            ∃ v, (entry.name, v) ∈ n.op.kind.inputNames.zip ins ∧ d.layout.Places v entry.value ∧
              d.Initialized g' ops i v := by
  obtain ⟨g', r, hprepare, hgenerate⟩ := compile_gives h
  obtain ⟨⟨ops₀, hops₀⟩, ⟨c, hedit⟩, -⟩ := prepare_gives hprepare
  have hg := hr.wellformed
  obtain ⟨hg', hs⟩ := Sane.simplify ⟨hg, hb.supplied hg hops₀⟩ hedit
  obtain ⟨r₁, r₂, hgen⟩ := hgenerate kind d hd
  obtain ⟨ops, hops, hall⟩ := readsOperands_of_generate hg' hgen
  refine ⟨g', r, ops, hprepare, hops, hall.length_eq.symm, fun i o k ho hk => ?_⟩
  obtain ⟨n, ins, hn, hins, hreads⟩ := forall₂_getElem? hall ho hk
  refine ⟨n, ins, operator_ok_iff.2 hn, hins, hreads.writes, fun entry he hdata hne => ?_⟩
  obtain ⟨v, hv, hplace⟩ := hreads.reads entry he hdata hne
  refine ⟨v, hv, hplace, ?_⟩
  -- The operators in front of this one are those at earlier positions.
  have hsplit : ops = ops.take i ++ o :: ops.drop (i + 1) := by
    obtain ⟨hlt, rfl⟩ := List.getElem?_eq_some_iff.1 ho
    rw [← List.drop_eq_getElem_cons hlt, List.take_append_drop]
  rcases hs.source hg' (hsplit ▸ hops) hins (List.of_mem_zip hv).2 with
    hvi | ⟨t, data, ht, hdata⟩ | ⟨c, hc, m, hm, rfl⟩
  · exact .input hvi
  · exact .constant ht hdata
  · obtain ⟨j, hjc⟩ := List.mem_iff_getElem?.1 hc
    rw [List.getElem?_take] at hjc
    split at hjc
    · next hj =>
      have hlt := hall.length_eq ▸ (List.getElem?_eq_some_iff.1 hjc).1
      have hk' := List.getElem?_eq_getElem hlt
      obtain ⟨m', _, hm', -, hreads'⟩ := forall₂_getElem? hall hjc hk'
      obtain rfl := Option.some.inj (hm.symm.trans hm')
      exact .computed hj hjc (operator_ok_iff.2 hm) rfl hk' hreads'.writes
    · cases hjc

/-- One element along the channels. -/
def channelType : TensorType :=
  ⟨[.known 1], ⟨[.channel], List.nodup_singleton _⟩, by decide⟩

/-- The repetition of one element, which is declared as an input, or is a leaf without data. -/
def repeated (inputs : List VarId) (marks : List Mark) : Graph ℚ where
  slots := #[.live { type := channelType, marks } none,
    .live { type := channelType, marks := [.output] } (some ⟨0⟩)]
  nodes := #[some ⟨.tile [1], [⟨0⟩], ⟨1⟩⟩]
  declaredInputs := inputs
  declaredOutputs := [⟨1⟩]

theorem built_repeated : Built {} (repeated [⟨0⟩] [.input]) ∧ Built {} (repeated [] []) := by
  have words : Session true {} [.known 1] ({} : Graph ℚ) := .word (.empty {}) (by decide)
  have made : (⟨channelType, [], none⟩ : Tensor ℚ).MadeFrom [.known 1] {} {} :=
    ⟨by simp [channelType], rfl, fun _ hx => by cases hx⟩
  have fed : Gives ((({} : Graph ℚ).addInput ⟨channelType, [], none⟩).1.addOp (.tile [1]) [⟨0⟩]) {}
    (_, ⟨1⟩) {} := rfl
  have bare : Gives ((({} : Graph ℚ).addVariable ⟨channelType, [], none⟩).1.addOp (.tile [1])
    [⟨0⟩]) {} (_, ⟨1⟩) {} := rfl
  exact ⟨⟨_, .markOutput (.addOp (.addInput words made) fed)
      (rfl : Graph.markOutput _ ⟨1⟩ = .ok (repeated [⟨0⟩] [.input]))⟩,
    ⟨_, .markOutput (.addOp (.addVariable words made) bare)
      (rfl : Graph.markOutput _ ⟨1⟩ = .ok (repeated [] []))⟩⟩

/-- The only leaf of the repetition is its input. -/
theorem bound_repeated : (repeated [⟨0⟩] [.input]).Bound := by
  intro vars hvars v hv hp
  obtain rfl : [⟨0⟩, ⟨1⟩] = vars := Except.ok.inj hvars
  simp only [List.mem_cons, List.not_mem_nil, or_false] at hv
  rcases hv with rfl | rfl
  · exact .inl (.head _)
  · cases hp

/-- Both elements side by side. -/
def repeatedLayout (first second : VarId) : MemoryLayout where
  allocations := [(first, ⟨.dynamic, .known 0, .known 1⟩), (second, ⟨.dynamic, .known 1, .known 1⟩)]
  staticSize := 0
  dynamicSize := .known 2

theorem allocates_repeated : Gives (MemoryLayout.allocate (repeated [⟨0⟩] [.input])) {}
    (repeatedLayout ⟨0⟩ ⟨1⟩) {} := by
  unfold Gives
  cbv

theorem constants_repeated {inputs : List VarId} {marks : List Mark} {first second : VarId} :
    (repeatedLayout first second).constants (repeated inputs marks) = .ok #[] :=
  MemoryLayout.constants_of_dynamic (by simp [repeatedLayout]) rfl

/-- The kernel of the repetition is emitted. -/
theorem generates_repeated {inputs : List VarId} {marks : List Mark} {first second : VarId}
    (hlayout : Gives (MemoryLayout.allocate (repeated inputs marks)) {}
      (repeatedLayout first second) {})
    (hops : (repeated inputs marks).topologicalOrder = .ok [⟨0⟩])
    (hplaces : ∃ place input, (repeatedLayout first second).get? ⟨1⟩ = some place ∧
      (repeatedLayout first second).get? ⟨0⟩ = some input ∧ place.offset.Fits ∧ input.offset.Fits) :
    ∃ d k, Gives ((repeated inputs marks).generate .webAssembly {}) {} d {} ∧ d.kernels = [k] ∧
      d.layout = .memory (repeatedLayout first second) ∧
      Linear.EmittedFor (repeatedLayout first second) (repeated inputs marks) ⟨0⟩ k := by
  obtain ⟨place, input, hplace, hinput, hy, hx⟩ := hplaces
  let c : KernelContext ℚ MemoryLayout := ⟨repeatedLayout first second, repeated inputs marks, {},
    ⟨0⟩, ⟨.tile [1], [⟨0⟩], ⟨1⟩⟩⟩
  have hentries : Gives (Linear.movementBindings (repeatedLayout first second) c) {}
      ([("y", .buffer place), ("x", .buffer input), ("y_shape", .ints [.known 1]),
        ("x_stride", .ints [.known 1]), ("size", .int (.known 1)), ("rank", .int (.known 1)),
        ("x_shape", .ints [.known 1])] : List (String × Binding ℚ)) {} := by
    have hy : c.output = .ok ⟨⟨1⟩, channelType⟩ := rfl
    have hx : c.soleOperand = .ok ⟨⟨0⟩, channelType⟩ := rfl
    have hstrides : Makes channelType.strides {} [.known 1] {} := rfl
    have hsize : Makes channelType.size {} (.known 1) {} := rfl
    simp only [Linear.movementBindings, gives_bind_iff, generates_graph_iff, generates_except_iff,
      generates_fresh_iff, placement_ok_iff, gives_pure_iff]
    exact ⟨_, _, ⟨hy, rfl⟩, _, _, ⟨hx, rfl⟩, place, _, ⟨hplace, rfl⟩, input, _, ⟨hinput, rfl⟩, _, _,
      hstrides, _, _, hsize, rfl, rfl⟩
  have hwrites : ∀ e ∈ ([("y", .buffer place), ("x", .buffer input), ("y_shape", .ints [.known 1]),
      ("x_stride", .ints [.known 1]), ("size", .int (.known 1)), ("rank", .int (.known 1)),
      ("x_shape", .ints [.known 1])] : List (String × Binding ℚ)), e.2.Writes := by
    have one : (Dim.known 1).Fits := by decide
    have ones : ∀ x ∈ [Dim.known 1], x.Fits := List.forall_mem_singleton.2 one
    simp only [List.forall_mem_cons, List.not_mem_nil, false_imp_iff, implies_true, and_true]
    exact ⟨hy, hx, ones, ones, one, one, ones⟩
  obtain ⟨k, hk, hgives⟩ := CLike.generates_movement (g := repeated inputs marks) rfl
    (fun _ h => by cases h) hops hlayout hentries hwrites constants_repeated
  exact ⟨⟨.webAssembly, [k], .memory _, #[]⟩, k, hgives, rfl, rfl, hk⟩

/-- Simplification leaves the repetition alone, and its kernel is emitted. -/
theorem compiles_repeated {inputs : List VarId} {marks : List Mark} {first second : VarId}
    (hprepare : Gives ((repeated inputs marks).prepare {}) {} (repeated inputs marks) {})
    (hlayout : Gives (MemoryLayout.allocate (repeated inputs marks)) {}
      (repeatedLayout first second) {})
    (hops : (repeated inputs marks).topologicalOrder = .ok [⟨0⟩])
    (hplaces : ∃ place input, (repeatedLayout first second).get? ⟨1⟩ = some place ∧
      (repeatedLayout first second).get? ⟨0⟩ = some input ∧ place.offset.Fits ∧ input.offset.Fits) :
    ∃ d k, Gives ((repeated inputs marks).compile [.webAssembly] {}) {}
      [(.webAssembly, .ok d)] {} ∧ d.kernels = [k] ∧
      d.layout = .memory (repeatedLayout first second) ∧
      Linear.EmittedFor (repeatedLayout first second) (repeated inputs marks) ⟨0⟩ k := by
  obtain ⟨d, k, hgives, hkernels, hd, hk⟩ := generates_repeated hlayout hops hplaces
  refine ⟨d, k, ?_, hkernels, hd, hk⟩
  unfold compile
  refine gives_bind_iff.2 ⟨_, _, hprepare, gives_mapM_cons_iff.2 ⟨_, _, _, ?_,
    gives_mapM_nil_iff.2 ⟨rfl, rfl⟩, rfl⟩⟩
  exact gives_bind_iff.2 ⟨_, _, gives_fresh_iff.2 hgives, gives_pure_iff.2 ⟨rfl, rfl⟩⟩

/-- The kernel reads the input. -/
theorem repeated_reads_initialized : ∃ d, Gives ((repeated [⟨0⟩] [.input]).compile [.webAssembly] {})
    {} [(.webAssembly, .ok d)] {} ∧ ∃ k, d.kernels[0]? = some k ∧ d.layout.Writes k ⟨1⟩ ∧
      ∀ entry ∈ k.bindings, entry.value.IsData → entry.name ≠ "y" →
        d.layout.Places ⟨0⟩ entry.value ∧
        d.Initialized (repeated [⟨0⟩] [.input]) [⟨0⟩] 0 ⟨0⟩ := by
  have hprepare : Gives ((repeated [⟨0⟩] [.input]).prepare {}) {} (repeated [⟨0⟩] [.input]) {} := rfl
  obtain ⟨d, k, hd, hk, -⟩ := compiles_repeated hprepare allocates_repeated rfl
    ⟨_, _, rfl, rfl, by decide, by decide⟩
  obtain ⟨g', r, ops, hg', hops, hlen, hall⟩ := reads_initialized_of_compile
    built_repeated.1.reached bound_repeated hd (.head _)
  obtain ⟨rfl, rfl⟩ : repeated [⟨0⟩] [.input] = g' ∧ {} = r := by
    simpa using hprepare.symm.trans hg'
  obtain rfl : [⟨0⟩] = ops := Except.ok.inj hops
  have hk0 : d.kernels[0]? = some k := by rw [hk]; rfl
  obtain ⟨n, ins, hn, hins, hwrites, hreads⟩ := hall 0 ⟨0⟩ k rfl hk0
  obtain rfl : ⟨.tile [1], [⟨0⟩], ⟨1⟩⟩ = n := Except.ok.inj hn
  obtain rfl : [⟨0⟩] = ins := Except.ok.inj hins
  refine ⟨d, hd, k, hk0, hwrites, fun entry he hdata hne => ?_⟩
  obtain ⟨v, hv, hplace, hinit⟩ := hreads entry he hdata hne
  obtain rfl : v = ⟨0⟩ := by simpa using (List.of_mem_zip hv).2
  exact ⟨hplace, hinit⟩

/-- Without the declaration, the leaf passes all checks, and the kernel reads it although it is no
input, no constant, and computed by nothing. -/
theorem repeated_reads_uninitialized : Built {} (repeated [] []) ∧
    Gives ((repeated [] []).prepare {}) {} (repeated [] []) {} ∧
    (repeated [] []).topologicalOrder = .ok [⟨0⟩] ∧
    ∃ d, Gives ((repeated [] []).compile [.webAssembly] {}) {} [(.webAssembly, .ok d)] {} ∧
      ∃ k, d.kernels[0]? = some k ∧ ∃ entry ∈ k.bindings, entry.value.IsData ∧ entry.name ≠ "y" ∧
        d.layout.Places ⟨0⟩ entry.value ∧
        ∀ v, d.layout.Places v entry.value → ¬d.Initialized (repeated [] []) [⟨0⟩] 0 v := by
  have hprepare : Gives ((repeated [] []).prepare {}) {} (repeated [] []) {} := rfl
  have hlayout : Gives (MemoryLayout.allocate (repeated [] [])) {} (repeatedLayout ⟨1⟩ ⟨0⟩) {} := by
    unfold Gives
    cbv
  obtain ⟨d, k, hd, hk, hl, hemitted⟩ := compiles_repeated hprepare hlayout rfl
    ⟨_, _, rfl, rfl, by decide, by decide⟩
  have hk0 : d.kernels[0]? = some k := by rw [hk]; rfl
  obtain ⟨ins, hins, hreads⟩ := hemitted.reads (n := ⟨.tile [1], [⟨0⟩], ⟨1⟩⟩) rfl rfl
  obtain rfl : [⟨0⟩] = ins := Except.ok.inj hins
  obtain ⟨value, hvalue, hplace⟩ := hreads.all "x" ⟨0⟩ (.head _)
  refine ⟨built_repeated.2, hprepare, rfl, d, hd, k, hk0, _, hvalue, ?_, (by decide : "x" ≠ "y"), hl ▸ hplace,
    fun v hv hinit => ?_⟩
  · cases value with
    | buffer a => exact trivial
    | _ => cases hplace
  · rw [hl] at hv
    cases value with
    | buffer a =>
      have e : (repeatedLayout ⟨1⟩ ⟨0⟩).get? v = some ⟨.dynamic, .known 1, .known 1⟩ :=
        (show (repeatedLayout ⟨1⟩ ⟨0⟩).get? v = some a from hv).trans
          (show (repeatedLayout ⟨1⟩ ⟨0⟩).get? ⟨0⟩ = some a from hplace).symm
      obtain rfl : v = ⟨0⟩ := by
        simp only [MemoryLayout.get?, repeatedLayout, List.lookup_cons, List.lookup_nil] at e
        split at e
        · cases e
        · split at e
          · next h => exact eq_of_beq h
          · cases e
      rcases hinit with h | ⟨ht, hdata⟩ | ⟨hj, _⟩
      · cases h
      · cases Except.ok.inj ht
        cases hdata
      · cases hj
    | _ => cases hplace

end Graph

end TensorCompiler
