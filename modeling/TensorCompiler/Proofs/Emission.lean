import Mathlib.Data.List.Flatten
import Mathlib.Data.List.Induction
import TensorCompiler.Proofs.Arena
import TensorCompiler.Proofs.Injection
import TensorCompiler.Proofs.Naming
/-!
# What generation emits

A successful generation emits one kernel for each operator of the traversal. This module opens it:
which names the loader finds with each kernel, and what stands behind them.

* `Kernel.Provides`: the loader reads the bindings of a kernel back.
* `CLike.kernel_ok`, `Wgsl.kernel_ok`, `Glsl.kernel_ok`: every backend's kernels provide theirs.
* `CLike.exists_movementKernel`: a kernel is emitted if its bindings can be written out.
* `Backend.generate_gives`: the steps of a generation.
* `generate_linear`, `generate_texture`: the kernels of the operators, in their order.
-/

namespace TensorCompiler

/-! ## Generation as a sequence of steps -/

section

variable {β γ : Type} {b : β} {s s' : Supply}

theorem generates_graph_iff {x : Except GraphError β} :
    Gives (liftM x : GenerateM β) s b s' ↔ x = .ok b ∧ s = s' := by
  show ((x.mapError GenerateError.graph, s) = (Except.ok b, s')) ↔ _
  simp [mapError_ok_iff]

theorem generates_template_iff {x : Except TemplateError β} :
    Gives (liftM x : GenerateM β) s b s' ↔ x = .ok b ∧ s = s' := by
  show ((x.mapError GenerateError.template, s) = (Except.ok b, s')) ↔ _
  simp [mapError_ok_iff]

theorem generates_pass_iff {x : Except PassError β} :
    Gives (liftM x : GenerateM β) s b s' ↔ x = .ok b ∧ s = s' := by
  show ((x.mapError GenerateError.ofPass, s) = (Except.ok b, s')) ↔ _
  simp [mapError_ok_iff]

theorem generates_except_iff {x : Except GenerateError β} :
    Gives (liftM x : GenerateM β) s b s' ↔ x = .ok b ∧ s = s' := by
  show ((x, s) = (Except.ok b, s')) ↔ _
  simp

theorem generates_graphM_iff {x : GraphM β} :
    Gives (liftM x : GenerateM β) s b s' ↔ Gives x s b s' := by
  show ((Id.run (x.run.run s)).1.mapError GenerateError.graph, (Id.run (x.run.run s)).2) =
    (Except.ok b, s') ↔ _
  unfold Gives
  rcases Id.run (x.run.run s) with ⟨r, s₁⟩
  simp [mapError_ok_iff]

theorem generates_fresh_iff {x : FreshM β} :
    Gives (liftM x : GenerateM β) s b s' ↔ Makes x s b s' := by
  show ((Except.ok (Id.run (x.run s)).1, (Id.run (x.run s)).2) = (Except.ok b, s')) ↔ _
  unfold Makes
  rcases Id.run (x.run s) with ⟨b', s₁⟩
  simp

/-- The steps of a list each succeed, from some supply. -/
theorem forall₂_of_gives_mapM {ε : Type} {f : β → ExceptT ε FreshM γ} {xs : List β} {ys : List γ}
    (h : Gives (xs.mapM f) s ys s') :
    List.Forall₂ (fun x y => ∃ r r', Gives (f x) r y r') xs ys := by
  induction xs generalizing s ys with
  | nil =>
    obtain ⟨rfl, -⟩ := gives_mapM_nil_iff.1 h
    exact .nil
  | cons x xs ih =>
    obtain ⟨y, s₁, ys', hy, hys, rfl⟩ := gives_mapM_cons_iff.1 h
    exact .cons ⟨s, s₁, hy⟩ (ih hys)

end

/-! ## Bindings -/

namespace Bindings

variable {α : Type} {bs : Bindings α} {name other : String} {b : Binding α}

theorem lookup_filter_ne {entries : List (String × Binding α)} (h : other ≠ name) :
    (entries.filter fun e => e.1 ≠ name).lookup other = entries.lookup other := by
  induction entries with
  | nil => rfl
  | cons e entries ih =>
    by_cases he : e.1 = name
    · have hne : (other == e.1) = false := by simpa [he] using h
      rw [List.filter_cons_of_neg (by simp [he]), ih, List.lookup_cons, hne]
    · rw [List.filter_cons_of_pos (by simp [he]), List.lookup_cons, List.lookup_cons, ih]

theorem get?_bind : (bs.bind name b).get? other = if other = name then some b else bs.get? other := by
  unfold bind get?
  split
  · next h => rw [h, List.lookup_cons_self]
  · next h =>
    have hne : (other == name) = false := by simpa using h
    rw [List.lookup_cons, hne]
    exact lookup_filter_ne h

/-- Names that are bound once have their values. -/
theorem get?_ofList {entries : List (String × Binding α)} (hn : (entries.map (·.1)).Nodup)
    (h : (name, b) ∈ entries) : (ofList entries).get? name = some b := by
  induction entries using List.reverseRecOn with
  | nil => cases h
  | append_singleton entries e ih =>
    have hsplit : ofList (entries ++ [e]) = (ofList entries).bind e.1 e.2 := by
      simp [ofList]
    rw [List.map_append, List.nodup_append] at hn
    rw [hsplit, get?_bind]
    rcases List.mem_append.1 h with h | h
    · have hne : name ≠ e.1 := hn.2.2 name (List.mem_map_of_mem h) e.1 (by simp)
      rw [if_neg hne, ih hn.1 h]
    · rw [← List.mem_singleton.1 h, if_pos rfl]

theorem mem_entries_ofList {entries : List (String × Binding α)} {e : String × Binding α}
    (h : e ∈ (ofList entries).entries) : e ∈ entries := by
  induction entries using List.reverseRecOn with
  | nil => exact h
  | append_singleton entries x ih =>
    have hsplit : ofList (entries ++ [x]) = (ofList entries).bind x.1 x.2 := by simp [ofList]
    rw [hsplit] at h
    rcases List.mem_cons.1 h with rfl | h
    · simp
    · exact List.mem_append_left _ (ih (List.mem_of_mem_filter h))

theorem mem_of_get?_ofList {entries : List (String × Binding α)}
    (h : (ofList entries).get? name = some b) : (name, b) ∈ entries := by
  obtain ⟨pre, post, e, -⟩ := List.lookup_eq_some_iff.1 h
  exact mem_entries_ofList (by simp [e])

end Bindings

/-! ## What the loader reads -/

namespace Kernel

variable {α : Type} {k : Kernel α} {entries : List (String × Binding α)} {name : String}

/-- Under every name, the loader finds a value that stands for the binding. It finds nothing else,
but for an integer that is not an operand. -/
structure Provides (k : Kernel α) (entries : List (String × Binding α)) : Prop where
  value : ∀ name b, (name, b) ∈ entries →
    ∃ value, k.value? name = some value ∧ b.Stored k.table value
  only : ∀ entry ∈ k.bindings, ∃ b, ((entry.name, b) ∈ entries ∨ ∃ x, b = .int x) ∧
    b.Stored k.table entry.value

theorem Provides.tail {x : Dim} (h : k.Provides ((name, .int x) :: entries)) :
    k.Provides entries where
  value name b hb := h.value name b (List.mem_cons_of_mem _ hb)
  only entry he := by
    obtain ⟨b, hb, hstored⟩ := h.only entry he
    refine ⟨b, ?_, hstored⟩
    rcases hb with hb | hb
    · rcases List.mem_cons.1 hb with e | hb
      · exact .inr ⟨x, (Prod.mk.inj e).2⟩
      · exact .inl hb
    · exact .inr hb

theorem Provides.ints (h : k.Provides entries) {xs : List Dim} (hm : (name, .ints xs) ∈ entries) :
    k.ints? name = some (xs.map Dim.stored) ∧ ∀ x ∈ xs, x.Fits := by
  obtain ⟨value, hvalue, hread, hfits⟩ := h.value _ _ hm
  exact ⟨by simp [ints?, hvalue, hread], hfits⟩

theorem Provides.int (h : k.Provides entries) {x : Dim} (hm : (name, .int x) ∈ entries) :
    k.int? name = some x.stored ∧ x.Fits := by
  obtain ⟨value, hvalue, hread, hfits⟩ := h.value _ _ hm
  exact ⟨by simp [int?, ints?, hvalue, hread], hfits⟩

theorem Provides.float (h : k.Provides entries) {x : α} (hm : (name, .float x) ∈ entries) :
    k.float? name = some x := by
  obtain ⟨value, hvalue, hread⟩ := h.value _ _ hm
  have hread' : value.float? = some x := hread
  simp [float?, hvalue, hread']

theorem Provides.buffer (h : k.Provides entries) {a : Allocation}
    (hm : (name, .buffer a) ∈ entries) : k.buffer? name = some a := by
  obtain ⟨value, hvalue, hread⟩ := h.value _ _ hm
  have hread' : value.buffer? = some a := hread
  simp [buffer?, hvalue, hread']

theorem Provides.sampler (h : k.Provides entries) {v : VarId}
    (hm : (name, .sampler v) ∈ entries) : k.sampler? name = some v := by
  obtain ⟨value, hvalue, hread⟩ := h.value _ _ hm
  have hread' : value.sampler? = some v := hread
  simp [sampler?, hvalue, hread']

end Kernel

/-! ## The bindings of handlers -/

theorem placement_ok_iff {layout : MemoryLayout} {v : VarId} {a : Allocation} :
    layout.placement v = .ok a ↔ layout.get? v = some a := by
  unfold MemoryLayout.placement
  split
  · next b hb => simp [hb]
  · next hb => simp [hb]

theorem texture_ok_iff {t : Glsl.Target} {v : VarId} {a : TextureAllocation} :
    t.texture v = .ok a ↔ t.layout.get? v = some a := by
  unfold Glsl.Target.texture
  split
  · next b hb => simp [hb]
  · next hb => simp [hb]

theorem checkRank_ok_iff {rank ceiling : Nat} {u : Unit} :
    checkRank rank ceiling = .ok u ↔ rank ≤ ceiling := by
  unfold checkRank
  split <;> simp [*]

theorem padTable_ok_iff {values padded : List Dim} {ceiling neutral : Nat} :
    padTable values ceiling neutral = .ok padded ↔ values.length ≤ ceiling ∧
      padded = values ++ List.replicate (ceiling - values.length) (.known neutral) := by
  unfold padTable checkRank
  split
  · next h => simp [h, bind, Except.bind, pure, Except.pure, eq_comm]
  · next h => simp [h, bind, Except.bind]

/-- There are strides for the output and for every operand. -/
theorem length_strides_of_unify {output : TensorType} {inputs : List TensorType}
    {order : IterationOrder} {s s' : Supply}
    (h : Makes (IterationOrder.unify output inputs) s order s') :
    order.strides.length = inputs.length + 1 := by
  simp only [IterationOrder.unify, makes_bind_iff, makes_pure_iff] at h
  obtain ⟨strides, _, hstrides, rfl, -⟩ := h
  exact length_of_makes_mapM hstrides

theorem zip_fst_sublist {β γ : Type} (xs : List β) (ys : List γ) :
    ((xs.zip ys).map (·.1)).Sublist xs := by
  induction xs generalizing ys with
  | nil => exact .slnil
  | cons x xs ih =>
    cases ys with
    | nil => simp
    | cons y ys => exact (ih ys).cons_cons x

section

variable {α τ : Type} {c : KernelContext α τ} {layout : MemoryLayout} {f : Pointwise α}
  {entries : List (String × Binding α)} {s s' : Supply}

theorem operand_ok_iff {v : VarId} {x : Operand} :
    c.operand v = .ok x ↔ ∃ t, c.graph.tensor v = .ok t ∧ x = ⟨v, t.type⟩ := by
  simp only [KernelContext.operand, bind_ok_iff, pure_ok_iff, eq_comm (a := x)]

theorem output_ok_iff {y : Operand} : c.output = .ok y ↔
    ∃ v t, c.graph.resolve c.node.output = .ok v ∧ c.graph.tensor v = .ok t ∧ y = ⟨v, t.type⟩ := by
  simp only [KernelContext.output, bind_ok_iff, operand_ok_iff]
  constructor
  · rintro ⟨v, hv, t, ht, rfl⟩
    exact ⟨v, t, hv, ht, rfl⟩
  · rintro ⟨v, t, hv, ht, rfl⟩
    exact ⟨v, hv, t, ht, rfl⟩

theorem inputs_ok_iff {xs : List Operand} : c.inputs = .ok xs ↔ ∃ ins,
    c.graph.inputsOf c.id = .ok ins ∧
      List.Forall₂ (fun v x => ∃ t, c.graph.tensor v = .ok t ∧ x = ⟨v, t.type⟩) ins xs := by
  simp only [KernelContext.inputs, bind_ok_iff, mapM_ok_iff, operand_ok_iff]

/-- The bindings of one operand of a pointwise kernel. -/
def Linear.operandBindings (name : String) (place : Allocation) (strides : List Dim) :
    List (String × Binding α) :=
  [(name, .buffer place), (strideName name, .ints strides)]

theorem Linear.pointwiseBindings_gives (h : Gives (pointwiseBindings layout c f) s entries s') :
    ∃ y inputs order place size s₁ operands, c.output = .ok y ∧ c.inputs = .ok inputs ∧
      Makes (IterationOrder.unify y.type (inputs.map (·.type))) s order s₁ ∧
      layout.get? y.var = some place ∧ Makes order.size s₁ size s' ∧
      List.Forall₂ (fun (e : String × Operand × List Dim) es => ∃ place,
        layout.get? e.2.1.var = some place ∧ es = operandBindings e.1 place e.2.2)
        (f.kind.inputNames.zip (inputs.zip order.strides.tail)) operands ∧
      entries = [("y", .buffer place), ("y_stride", .ints (order.strides.headD [])),
        ("shape", .ints order.shape), ("size", .int size),
        ("rank", .int (.known order.rank))] ++ operands.flatten ++ f.parameterBindings := by
  have operand : ∀ (e : String × Operand × List Dim) s es s',
      Gives (do
        let place ← (liftM (layout.placement e.2.1.var) : GenerateM _)
        return [(e.1, .buffer place), (strideName e.1, .ints e.2.2)]) s es s' ↔
      (∃ place, layout.get? e.2.1.var = some place ∧
        es = operandBindings (α := α) e.1 place e.2.2) ∧ s = s' := by
    intro e s es s'
    simp only [gives_bind_iff, generates_except_iff, placement_ok_iff, gives_pure_iff]
    constructor
    · rintro ⟨place, _, ⟨hp, rfl⟩, rfl, rfl⟩
      exact ⟨⟨place, hp, rfl⟩, rfl⟩
    · rintro ⟨⟨place, hp, rfl⟩, rfl⟩
      exact ⟨place, s, ⟨hp, rfl⟩, rfl, rfl⟩
  simp only [pointwiseBindings, gives_bind_iff, generates_graph_iff, generates_except_iff,
    generates_fresh_iff, placement_ok_iff] at h
  obtain ⟨y, _, ⟨hy, rfl⟩, inputs, _, ⟨hin, rfl⟩, order, s₁, horder, place, _, ⟨hplace, rfl⟩, size,
    s₂, hsize, operands, _, hoperands, h⟩ := h
  obtain ⟨hall, rfl⟩ := (gives_mapM_iff operand).1 hoperands
  obtain ⟨rfl, rfl⟩ := gives_pure_iff.1 h
  exact ⟨y, inputs, order, place, size, s₁, operands, hy, hin, horder, hplace, hsize, hall, rfl⟩

theorem Linear.movementBindings_gives (h : Gives (movementBindings layout c) s entries s') :
    ∃ y x place input strides size s₁, c.output = .ok y ∧ c.inputs = .ok [x] ∧
      layout.get? y.var = some place ∧ layout.get? x.var = some input ∧
      Makes x.type.strides s strides s₁ ∧ Makes y.type.size s₁ size s' ∧
      entries = [("y", .buffer place), ("x", .buffer input), ("y_shape", .ints y.type.shape),
        ("x_stride", .ints strides), ("size", .int size), ("rank", .int (.known y.type.rank))] ++
        (c.node.op.movementTables x.type).map fun e => (e.1, .ints e.2) := by
  simp only [movementBindings, KernelContext.soleOperand, gives_bind_iff, generates_graph_iff,
    generates_except_iff, generates_fresh_iff, placement_ok_iff, bind_ok_iff, soleInput_ok_iff,
    gives_pure_iff] at h
  obtain ⟨y, _, ⟨hy, rfl⟩, x, _, ⟨⟨_, hin, rfl⟩, rfl⟩, place, _, ⟨hplace, rfl⟩, input, _,
    ⟨hinput, rfl⟩, strides, s₁, hstrides, size, _, hsize, rfl, rfl⟩ := h
  exact ⟨y, x, place, input, strides, size, s₁, hy, hin, hplace, hinput, hstrides, hsize, rfl⟩

end

namespace Glsl

variable {α : Type} {c : KernelContext α Target} {f : Pointwise α}
  {entries : List (String × Binding α)} {s s' : Supply}

/-- A table filled up with a neutral entry. -/
def filled (neutral : Nat) (values : List Dim) : List Dim :=
  values ++ List.replicate (maxRank - values.length) (.known neutral)

theorem pad_ok {order padded : IterationOrder} (h : order.pad maxRank = .ok padded) :
    order.rank ≤ maxRank ∧ order.shape.length ≤ maxRank ∧
      (∀ strides ∈ order.strides, strides.length ≤ maxRank) ∧
      padded.shape = filled 1 order.shape ∧ padded.strides = order.strides.map (filled 1) := by
  simp only [IterationOrder.pad, bind_ok_iff, checkRank_ok_iff, padTable_ok_iff, mapM_ok_iff,
    pure_ok_iff] at h
  obtain ⟨-, hrank, shape, ⟨hshape, rfl⟩, strides, hstrides, rfl⟩ := h
  refine ⟨hrank, hshape, fun xs hxs => ?_, rfl, eq_map_of_forall₂ (hstrides.imp fun _ _ h => h.2)⟩
  obtain ⟨ys, -, hle, -⟩ := exists_of_forall₂_left hstrides hxs
  exact hle

/-- The bindings of the output. -/
def outputEntries (channels : Nat) (t : TextureAllocation) (size : Dim) :
    List (String × Binding α) :=
  [("channels", .int (.known channels)), ("y_texture", extentBinding t), ("y_size", .int size)]

/-- The bindings of an operand that is read. -/
def sampledEntries (name : String) (v : VarId) (t : TextureAllocation) : List (String × Binding α) :=
  [(name, .sampler v), (textureName name, extentBinding t)]

theorem outputBindings_gives_iff {y : Operand} :
    Gives (outputBindings c y) s entries s' ↔ ∃ t size, c.target.layout.get? y.var = some t ∧
      Makes y.type.size s size s' ∧ entries = outputEntries c.target.channels t size := by
  simp only [outputBindings, gives_bind_iff, generates_fresh_iff, generates_except_iff,
    texture_ok_iff, gives_pure_iff]
  constructor
  · rintro ⟨size, _, hsize, t, _, ⟨ht, rfl⟩, rfl, rfl⟩
    exact ⟨t, size, ht, hsize, rfl⟩
  · rintro ⟨t, size, ht, hsize, rfl⟩
    exact ⟨size, s', hsize, t, s', ⟨ht, rfl⟩, rfl, rfl⟩

theorem sampledBindings_ok_iff {t : Target} {name : String} {v : VarId} :
    sampledBindings t name v = .ok entries ↔
      ∃ u, t.layout.get? v = some u ∧ entries = sampledEntries name v u := by
  simp only [sampledBindings, bind_ok_iff, texture_ok_iff, pure_ok_iff, sampledEntries,
    eq_comm (a := entries)]

theorem pointwiseBindings_gives (h : Gives (pointwiseBindings c f) s entries s') :
    ∃ y inputs order padded t size s₁ operands, c.output = .ok y ∧ c.inputs = .ok inputs ∧
      Makes (IterationOrder.unify y.type (inputs.map (·.type))) s order s₁ ∧
      order.pad maxRank = .ok padded ∧ c.target.layout.get? y.var = some t ∧
      Makes y.type.size s₁ size s' ∧
      List.Forall₂ (fun (e : String × Operand × List Dim) es => ∃ u,
        c.target.layout.get? e.2.1.var = some u ∧
          es = sampledEntries e.1 e.2.1.var u ++ [(strideName e.1, .ints e.2.2)])
        (f.kind.inputNames.zip (inputs.zip padded.strides.tail)) operands ∧
      entries = outputEntries c.target.channels t size ++ [("shape", .ints padded.shape)] ++
        operands.flatten ++ f.parameterBindings := by
  have operand : ∀ (e : String × Operand × List Dim) s es s',
      Gives (do
        let sampled ← (liftM (sampledBindings (α := α) c.target e.1 e.2.1.var) : GenerateM _)
        return sampled ++ [(strideName e.1, .ints e.2.2)]) s es s' ↔
      (∃ u, c.target.layout.get? e.2.1.var = some u ∧
        es = sampledEntries e.1 e.2.1.var u ++ [(strideName e.1, .ints e.2.2)]) ∧ s = s' := by
    intro e s es s'
    simp only [gives_bind_iff, generates_except_iff, sampledBindings_ok_iff, gives_pure_iff]
    constructor
    · rintro ⟨_, _, ⟨⟨u, hu, rfl⟩, rfl⟩, rfl, rfl⟩
      exact ⟨⟨u, hu, rfl⟩, rfl⟩
    · rintro ⟨⟨u, hu, rfl⟩, rfl⟩
      exact ⟨_, s, ⟨⟨u, hu, rfl⟩, rfl⟩, rfl, rfl⟩
  simp only [pointwiseBindings, gives_bind_iff, generates_graph_iff, generates_except_iff,
    generates_fresh_iff, outputBindings_gives_iff] at h
  obtain ⟨y, _, ⟨hy, rfl⟩, inputs, _, ⟨hin, rfl⟩, order, s₁, horder, padded, _, ⟨hpad, rfl⟩, output,
    s₂, ⟨t, size, ht, hsize, rfl⟩, operands, _, hoperands, h⟩ := h
  obtain ⟨hall, rfl⟩ := (gives_mapM_iff operand).1 hoperands
  obtain ⟨rfl, rfl⟩ := gives_pure_iff.1 h
  exact ⟨y, inputs, order, padded, t, size, s₁, operands, hy, hin, horder, hpad, ht, hsize, hall,
    rfl⟩

theorem movementBindings_gives (h : Gives (movementBindings c) s entries s') :
    ∃ y x t u strides size s₁, c.output = .ok y ∧ c.inputs = .ok [x] ∧
      c.target.layout.get? y.var = some t ∧ c.target.layout.get? x.var = some u ∧
      Makes y.type.size s size s₁ ∧ Makes x.type.strides s₁ strides s' ∧
      y.type.shape.length ≤ maxRank ∧ strides.length ≤ maxRank ∧
      (∀ e ∈ c.node.op.movementTables x.type, e.2.length ≤ maxRank) ∧
      entries = outputEntries c.target.channels t size ++
        [("y_shape", .ints (filled 1 y.type.shape)), ("x_stride", .ints (filled 1 strides))] ++
        sampledEntries "x" x.var u ++ (c.node.op.movementTables x.type).map fun e =>
          (e.1, .ints (filled (neutralEntry e.1) e.2)) := by
  have table : ∀ (e : String × List Dim) s b s',
      Gives (do
        let values ← (liftM (padTable e.2 maxRank (neutralEntry e.1)) : GenerateM _)
        return (e.1, Binding.ints (α := α) values)) s b s' ↔
      (e.2.length ≤ maxRank ∧ b = (e.1, .ints (filled (neutralEntry e.1) e.2))) ∧ s = s' := by
    intro e s b s'
    simp only [gives_bind_iff, generates_except_iff, padTable_ok_iff, gives_pure_iff]
    constructor
    · rintro ⟨values, _, ⟨⟨hle, rfl⟩, rfl⟩, rfl, rfl⟩
      exact ⟨⟨hle, rfl⟩, rfl⟩
    · rintro ⟨⟨hle, rfl⟩, rfl⟩
      exact ⟨_, s, ⟨⟨hle, rfl⟩, rfl⟩, rfl, rfl⟩
  simp only [movementBindings, KernelContext.soleOperand, gives_bind_iff, generates_graph_iff,
    generates_except_iff, generates_fresh_iff, outputBindings_gives_iff, sampledBindings_ok_iff,
    padTable_ok_iff, bind_ok_iff, soleInput_ok_iff] at h
  obtain ⟨y, _, ⟨hy, rfl⟩, x, _, ⟨⟨_, hin, rfl⟩, rfl⟩, output, s₁, ⟨t, size, ht, hsize, rfl⟩, shape,
    _, ⟨⟨hshape, rfl⟩, rfl⟩, strides, s₂, hstrides, padded, _, ⟨⟨hlen, rfl⟩, rfl⟩, input, _,
    ⟨⟨u, hu, rfl⟩, rfl⟩, tables, _, htables, h⟩ := h
  obtain ⟨hall, rfl⟩ := (gives_mapM_iff table).1 htables
  obtain ⟨rfl, rfl⟩ := gives_pure_iff.1 h
  refine ⟨y, x, t, u, strides, size, s₁, hy, hin, ht, hu, hsize, hstrides, hshape, hlen, ?_, ?_⟩
  · intro e he
    obtain ⟨b, -, hle, -⟩ := exists_of_forall₂_left hall he
    exact hle
  · rw [eq_map_of_forall₂ (hall.imp fun _ _ h => h.2)]
    rfl

end Glsl

/-! ## Distinct names -/

section

variable {α τ : Type} {entries : List (String × Binding α)} {s s' : Supply}

theorem names_flatten {β : Type} (names : String → List String) {operands : List (String × β)}
    {parts : List (List (String × Binding α))}
    (h : List.Forall₂ (fun e es => es.map (·.1) = names e.1) operands parts) :
    parts.flatten.map (·.1) = (operands.map (·.1)).flatMap names := by
  induction h with
  | nil => rfl
  | cons hx _ ih => rw [List.flatten_cons, List.map_append, hx, ih, List.map_cons, List.flatMap_cons]

/-- The names of the operands that there are, between other names, are distinct if those of all
operands are. -/
theorem nodup_operands {β : Type} (before : List String) {after all : List String}
    {names : String → List String} {operands : List β}
    (h : (before ++ all.flatMap names ++ after).Nodup) :
    (before ++ ((all.zip operands).map (·.1)).flatMap names ++ after).Nodup := by
  refine h.sublist (.append (.append (.refl _) ?_) (.refl _))
  exact (zip_fst_sublist all operands).flatMap names

theorem map_fst_parameterBindings (f : Pointwise α) : f.parameterBindings.map (·.1) =
    match f with
    | .affine .. => ["scale", "bias"]
    | _ => [] := by
  cases f <;> rfl

theorem Linear.nodup_pointwiseBindings {c : KernelContext α τ} {layout : MemoryLayout}
    {f : Pointwise α} (h : Gives (pointwiseBindings layout c f) s entries s') :
    ("workgroup_size" :: entries.map (·.1)).Nodup := by
  obtain ⟨y, inputs, order, place, size, s₁, operands, -, -, -, -, -, hall, rfl⟩ :=
    pointwiseBindings_gives h
  have hnames := names_flatten (fun x => [x, strideName x])
    (hall.imp fun e es ⟨_, _, h⟩ => by rw [h]; rfl)
  rw [List.map_append, List.map_append, hnames, map_fst_parameterBindings]
  refine nodup_operands ["workgroup_size", "y", "y_stride", "shape", "size", "rank"] ?_
  cases f <;> simp [Pointwise.kind, OpKind.inputNames, strideName]

theorem Linear.nodup_movementBindings {c : KernelContext α τ} {layout : MemoryLayout}
    (h : Gives (movementBindings layout c) s entries s') :
    ("workgroup_size" :: entries.map (·.1)).Nodup := by
  obtain ⟨y, x, place, input, strides, size, s₁, -, -, -, -, -, -, rfl⟩ := movementBindings_gives h
  have hnames : ((c.node.op.movementTables x.type).map fun e =>
      (e.1, (Binding.ints e.2 : Binding α))).map (·.1) = c.node.op.movementNames := by
    rw [List.map_map]
    exact Operator.map_fst_movementTables _ _
  rw [List.map_append, hnames]
  cases c.node.op <;> simp [Operator.movementNames]

theorem Glsl.nodup_pointwiseBindings {c : KernelContext α Target} {f : Pointwise α}
    (h : Gives (pointwiseBindings c f) s entries s') : (entries.map (·.1)).Nodup := by
  obtain ⟨y, inputs, order, padded, t, size, s₁, operands, -, -, -, -, -, -, hall, rfl⟩ :=
    pointwiseBindings_gives h
  have hnames := names_flatten (fun x => [x, textureName x, strideName x])
    (hall.imp fun e es ⟨_, _, h⟩ => by rw [h]; rfl)
  rw [List.map_append, List.map_append, hnames, map_fst_parameterBindings]
  refine nodup_operands ["channels", "y_texture", "y_size", "shape"] ?_
  cases f <;> simp [Pointwise.kind, OpKind.inputNames, strideName, textureName]

theorem Glsl.nodup_movementBindings {c : KernelContext α Target}
    (h : Gives (movementBindings c) s entries s') : (entries.map (·.1)).Nodup := by
  obtain ⟨y, x, t, u, strides, size, s₁, -, -, -, -, -, -, -, -, -, rfl⟩ := movementBindings_gives h
  have hnames : ((c.node.op.movementTables x.type).map fun e =>
      (e.1, (Binding.ints (filled (neutralEntry e.1) e.2) : Binding α))).map (·.1) =
        c.node.op.movementNames := by
    rw [List.map_map]
    exact Operator.map_fst_movementTables _ _
  rw [List.map_append, hnames]
  cases c.node.op <;> simp [Operator.movementNames, outputEntries, sampledEntries, textureName]

end

/-! ## Kernels of the backends -/

section

variable {α : Type} [ScalarText α] {template : Template} {entries : List (String × Binding α)}
  {k : Kernel α}

/-- A kernel that is made from an injection provides what was bound. -/
theorem Kernel.provides_of_inject {injector : Injector α} {injected : Injected α}
    (h : injector.inject template = .ok injected)
    (hentries : injector.bindings = Bindings.ofList entries) (hn : (entries.map (·.1)).Nodup)
    (htable : k.table = injected.table) (hbindings : k.bindings = injected.bindings) :
    k.Provides entries where
  value name b hb := by
    obtain ⟨value, hvalue, hstored⟩ :=
      inject_provides h (hentries ▸ Bindings.get?_ofList hn hb)
    exact ⟨value, by rw [Kernel.value?, hbindings, hvalue], htable ▸ hstored⟩
  only entry he := by
    obtain ⟨b, hb, hstored⟩ := inject_bound h (hbindings ▸ he)
    exact ⟨b, .inl (Bindings.mem_of_get?_ofList (hentries ▸ hb)), htable ▸ hstored⟩

theorem CLike.kernel_ok {c : KernelContext α MemoryLayout}
    (h : CLike.kernel c template entries = .ok k) (hn : (entries.map (·.1)).Nodup) :
    k.name = c.name ∧ k.kind = c.node.op.kind ∧ k.launch = .serial ∧ k.Provides entries := by
  simp only [CLike.kernel, bind_ok_iff, pure_ok_iff] at h
  obtain ⟨injected, hinjected, rfl⟩ := h
  exact ⟨rfl, rfl, rfl, Kernel.provides_of_inject hinjected rfl hn rfl rfl⟩

theorem Wgsl.kernel_ok {c : KernelContext α Wgsl.Target}
    (h : Wgsl.kernel c template entries = .ok k)
    (hn : ("workgroup_size" :: entries.map (·.1)).Nodup) :
    k.name = c.name ∧ k.kind = c.node.op.kind ∧
      k.launch = .compute Wgsl.workgroups c.target.workgroupSize ∧
      k.Provides (("workgroup_size", .int (.known c.target.workgroupSize)) :: entries) := by
  simp only [Wgsl.kernel, bind_ok_iff, mapError_ok_iff, pure_ok_iff] at h
  obtain ⟨injected, hinjected, rfl⟩ := h
  exact ⟨rfl, rfl, rfl, Kernel.provides_of_inject hinjected rfl hn rfl rfl⟩

omit [ScalarText α] in
theorem CLike.requests_movementTemplate (op : Operator α) : (movementTemplate op).requests =
    .funcName :: (["y", "x", "y_shape", "x_stride"] ++ op.movementNames ++ ["size", "rank"]).map
      .loadBuffer := by
  cases op <;> rfl

/-- The kernel of a data movement is emitted if all its bindings can be written out. -/
theorem CLike.exists_movementKernel {c : KernelContext α MemoryLayout}
    {entries : List (String × Binding α)} {s s' : Supply}
    (hentries : Gives (Linear.movementBindings c.target c) s entries s')
    (hwrites : ∀ e ∈ entries, e.2.Writes) :
    ∃ k, CLike.kernel c (movementTemplate c.node.op) entries = .ok k := by
  have hrequests := requests_movementTemplate c.node.op
  have hnames : (movementTemplate c.node.op).names =
      ["y", "x", "y_shape", "x_stride"] ++ c.node.op.movementNames ++ ["size", "rank"] := by
    rw [Template.names, hrequests, List.filterMap_cons_none rfl, List.filterMap_map]
    exact List.filterMap_some
  have hnodup := (List.nodup_cons.1 (Linear.nodup_movementBindings hentries)).2
  have hbound : entries.map (·.1) =
      ["y", "x", "y_shape", "x_stride", "size", "rank"] ++ c.node.op.movementNames := by
    obtain ⟨y, x, place, input, strides, size, s₁, -, -, -, -, -, -, rfl⟩ :=
      Linear.movementBindings_gives hentries
    rw [List.map_append, List.map_map]
    exact congrArg _ (Operator.map_fst_movementTables _ _)
  have hmem : ∀ name, name ∈ (movementTemplate c.node.op).names ↔ name ∈ entries.map (·.1) := by
    intro name
    rw [hnames, hbound]
    simp only [List.mem_append, List.mem_cons, List.not_mem_nil, or_false]
    tauto
  have hload : ∀ name b, (Bindings.ofList entries).get? name = some b → ∀ table,
      ∃ r, Dialect.c.load name b table = .ok r := by
    intro name b hb table
    obtain ⟨pre, post, e, -⟩ := List.lookup_eq_some_iff.1 hb
    have he : (name, b) ∈ (Bindings.ofList entries).entries := by simp [e]
    exact load_ok_of_writes (hwrites _ (Bindings.mem_entries_ofList he)) table
  have hloads : ∀ r ∈ (movementTemplate c.node.op).requests,
      r = .funcName ∨ ∃ name, r = .loadBuffer name := by
    intro r hr
    rw [hrequests] at hr
    rcases List.mem_cons.1 hr with rfl | hr
    · exact .inl rfl
    · obtain ⟨name, -, rfl⟩ := List.mem_map.1 hr
      exact .inr ⟨name, rfl⟩
  obtain ⟨injected, h⟩ := inject_ok_of_loads c.name hload hloads
    (fun name hname => by
      obtain ⟨e, he, rfl⟩ := List.mem_map.1 ((hmem name).1 hname)
      exact ⟨e.2, Bindings.get?_ofList hnodup he⟩)
    fun e he => (hmem e.1).2 (List.mem_map_of_mem (Bindings.mem_entries_ofList he))
  exact ⟨_, by rw [kernel, h]; rfl⟩

/-- In GLSL, nothing is put into a table. -/
theorem load_glsl {name : String} {b : Binding α} {t t' : MetaTable} {r : Rendered α}
    (h : Dialect.glsl.load name b t = .ok (r, t')) : t' = t := by
  cases b with
  | int x =>
    simp only [Dialect.load, Dialect.loadInt, if_true] at h
    split at h
    · simp only [bind_ok_iff, pure_ok_iff, Prod.mk.injEq] at h
      obtain ⟨-, -, -, rfl⟩ := h
      rfl
    · cases h
  | float x =>
    simp only [Dialect.load, bind_ok_iff, pure_ok_iff, Prod.mk.injEq] at h
    obtain ⟨-, -, -, rfl⟩ := h
    rfl
  | ints xs => cases h
  | buffer a => cases h
  | sampler v => cases h

theorem inject_glsl {injector : Injector α} {injected : Injected α} (hd : injector.dialect = .glsl)
    (h : injector.inject template = .ok injected) : injected.table = {} := by
  obtain ⟨-, s, hs, rfl⟩ := inject_ok h
  refine foldlM_ok_induction (P := fun s => s.table = {}) hs rfl ?_
  intro s segment s' _ ht hstep
  cases Injection.writes_of_step hstep with
  | text => exact ht
  | unbound => exact ht
  | again => exact ht
  | first hname _ _ hrender =>
    rcases Injection.render_cases hname hrender with ⟨r, t, -, hload, rfl⟩ | ⟨_, _, _, -, -, rfl⟩
    · rw [hd] at hload
      exact (load_glsl hload).trans ht
    · exact ht

theorem Glsl.kernel_gives {c : KernelContext α Glsl.Target} {s s' : Supply}
    (h : Gives (Glsl.kernel c template entries) s k s') (hn : (entries.map (·.1)).Nodup) :
    ∃ y t, c.output = .ok y ∧ c.target.texture y.var = .ok t ∧ k.name = c.name ∧
      k.kind = c.node.op.kind ∧ k.launch = .fragment y.var t.shape ∧ k.Provides entries := by
  simp only [Glsl.kernel, gives_bind_iff, generates_graph_iff, generates_except_iff,
    generates_template_iff, gives_pure_iff] at h
  obtain ⟨y, _, ⟨hy, rfl⟩, t, _, ⟨ht, rfl⟩, injected, _, ⟨hinjected, rfl⟩, rfl, rfl⟩ := h
  exact ⟨y, t, hy, ht, rfl, rfl, rfl, Kernel.provides_of_inject hinjected rfl hn
    (inject_glsl rfl hinjected).symm rfl⟩

end

/-! ## Handlers -/

/-- How a kernel over linear memory is started. -/
inductive Kernel.StartsLinear {α : Type} (k : Kernel α) : Prop where
  | serial : k.launch = .serial → StartsLinear k
  | compute {workgroups size : Nat} : k.launch = .compute workgroups size → 0 < workgroups →
      0 < size → k.int? "workgroup_size" = some size → StartsLinear k

section

variable {α : Type}

/-- The bindings of a kernel over linear memory. -/
def Linear.bindings {τ : Type} (layout : MemoryLayout) (c : KernelContext α τ) :
    GenerateM (List (String × Binding α)) :=
  match c.node.op with
  | .pointwise f => pointwiseBindings layout c f
  | _ => movementBindings layout c

/-- A kernel over linear memory that was emitted for an operator. -/
structure Linear.EmittedFor (layout : MemoryLayout) (g : Graph α) (o : OpId) (k : Kernel α) :
    Prop where
  emitted : ∃ (τ : Type) (c : KernelContext α τ) (entries : List (String × Binding α))
    (s s' : Supply), c.graph = g ∧ c.id = o ∧ g.node? o = some c.node ∧
      Gives (Linear.bindings layout c) s entries s' ∧ k.Provides entries ∧ k.name = c.name ∧
      k.kind = c.node.op.kind
  starts : k.StartsLinear

/-- The bindings of a fragment kernel. -/
def Glsl.bindings (c : KernelContext α Target) : GenerateM (List (String × Binding α)) :=
  match c.node.op with
  | .pointwise f => pointwiseBindings c f
  | _ => movementBindings c

/-- A fragment kernel that was emitted for an operator. -/
def Glsl.EmittedFor (target : Target) (g : Graph α) (o : OpId) (k : Kernel α) : Prop :=
  ∃ (c : KernelContext α Target) (entries : List (String × Binding α)) (s s' : Supply)
    (y : Operand) (t : TextureAllocation), c.graph = g ∧ c.id = o ∧ g.node? o = some c.node ∧
      c.target = target ∧ Gives (Glsl.bindings c) s entries s' ∧ k.Provides entries ∧
      k.name = c.name ∧ k.kind = c.node.op.kind ∧ c.output = .ok y ∧
      target.layout.get? y.var = some t ∧ k.launch = .fragment y.var t.shape

/-- A kernel over linear memory whose template was filled with the bindings of an operator. -/
structure Linear.FilledFor [ScalarText α] (layout : MemoryLayout) (g : Graph α) (o : OpId)
    (k : Kernel α) : Prop where
  filled : ∃ (τ : Type) (c : KernelContext α τ) (entries : List (String × Binding α))
    (s s' : Supply) (injector : Injector α) (template : Template) (injected : Injected α),
    c.graph = g ∧ c.id = o ∧ g.node? o = some c.node ∧ Gives (Linear.bindings layout c) s entries s' ∧
      injector.dialect ≠ .glsl ∧ (k.launch = .serial ∧ injector.bindings = .ofList entries ∨
        ∃ workgroups size, k.launch = .compute workgroups size ∧
          injector.bindings = .ofList (("workgroup_size", .int (.known size)) :: entries)) ∧
      injector.inject template = .ok injected ∧ k.table = injected.table ∧
      k.bindings = injected.bindings ∧ k.patches = injected.patches ∧ k.kind = c.node.op.kind
  dynamicSize : k.dynamicSize = layout.dynamicSize

theorem Linear.nodup_bindings {τ : Type} {layout : MemoryLayout} {c : KernelContext α τ}
    {entries : List (String × Binding α)} {s s' : Supply}
    (h : Gives (Linear.bindings layout c) s entries s') :
    ("workgroup_size" :: entries.map (·.1)).Nodup := by
  unfold Linear.bindings at h
  split at h
  · exact nodup_pointwiseBindings h
  · exact nodup_movementBindings h

theorem Glsl.nodup_bindings {c : KernelContext α Target} {entries : List (String × Binding α)}
    {s s' : Supply} (h : Gives (Glsl.bindings c) s entries s') : (entries.map (·.1)).Nodup := by
  unfold Glsl.bindings at h
  split at h
  · exact nodup_pointwiseBindings h
  · exact nodup_movementBindings h

/-- The template of an operator's kernel. -/
def BackendKind.template (kind : BackendKind) (op : Operator α) : Template :=
  match kind, op with
  | webAssembly, .pointwise f => CLike.pointwiseTemplate f
  | webAssembly, op => CLike.movementTemplate op
  | webGpu, .pointwise f => Wgsl.pointwiseTemplate f
  | webGpu, op => Wgsl.movementTemplate op
  | webGl, .pointwise f => Glsl.pointwiseTemplate f
  | webGl, op => Glsl.movementTemplate op

variable [ScalarText α] {ks : List (Kernel α)} {s s' : Supply}

/-- A handler makes the bindings of the operator and fills its template with them. -/
theorem CLike.handler_eq (c : KernelContext α MemoryLayout) : CLike.handler c = do
    let entries ← Linear.bindings c.target c
    return [← kernel c (BackendKind.webAssembly.template c.node.op) entries] := by
  unfold handler Linear.bindings
  cases c.node.op <;> rfl

theorem Wgsl.handler_eq (c : KernelContext α Target) : Wgsl.handler c = do
    let entries ← Linear.bindings c.target.layout c
    return [← kernel c (BackendKind.webGpu.template c.node.op) entries] := by
  unfold handler Linear.bindings
  cases c.node.op <;> rfl

theorem Glsl.handler_eq (c : KernelContext α Target) : Glsl.handler c = do
    let entries ← Glsl.bindings c
    return [← kernel c (BackendKind.webGl.template c.node.op) entries] := by
  unfold handler Glsl.bindings
  cases c.node.op <;> rfl

theorem CLike.handler_gives_iff {c : KernelContext α MemoryLayout} :
    Gives (CLike.handler c) s ks s' ↔ ∃ entries k, Gives (Linear.bindings c.target c) s entries s' ∧
      CLike.kernel c (BackendKind.webAssembly.template c.node.op) entries = .ok k ∧ ks = [k] := by
  simp only [handler_eq, gives_bind_iff, generates_template_iff, gives_pure_iff]
  constructor
  · rintro ⟨entries, _, hentries, k, _, ⟨hk, rfl⟩, rfl, rfl⟩
    exact ⟨entries, k, hentries, hk, rfl⟩
  · rintro ⟨entries, k, hentries, hk, rfl⟩
    exact ⟨entries, s', hentries, k, s', ⟨hk, rfl⟩, rfl, rfl⟩

theorem Wgsl.handler_gives_iff {c : KernelContext α Target} :
    Gives (Wgsl.handler c) s ks s' ↔ ∃ entries k,
      Gives (Linear.bindings c.target.layout c) s entries s' ∧
      Wgsl.kernel c (BackendKind.webGpu.template c.node.op) entries = .ok k ∧ ks = [k] := by
  simp only [handler_eq, gives_bind_iff, generates_except_iff, gives_pure_iff]
  constructor
  · rintro ⟨entries, _, hentries, k, _, ⟨hk, rfl⟩, rfl, rfl⟩
    exact ⟨entries, k, hentries, hk, rfl⟩
  · rintro ⟨entries, k, hentries, hk, rfl⟩
    exact ⟨entries, s', hentries, k, s', ⟨hk, rfl⟩, rfl, rfl⟩

theorem Glsl.handler_gives_iff {c : KernelContext α Target} :
    Gives (Glsl.handler c) s ks s' ↔ ∃ entries k s₁, Gives (Glsl.bindings c) s entries s₁ ∧
      Gives (Glsl.kernel c (BackendKind.webGl.template c.node.op) entries) s₁ k s' ∧ ks = [k] := by
  simp only [handler_eq, gives_bind_iff, gives_pure_iff]
  constructor
  · rintro ⟨entries, s₁, hentries, k, _, hk, rfl, rfl⟩
    exact ⟨entries, k, s₁, hentries, hk, rfl⟩
  · rintro ⟨entries, k, s₁, hentries, hk, rfl⟩
    exact ⟨entries, s₁, hentries, k, s', hk, rfl, rfl⟩

theorem CLike.handler_gives {c : KernelContext α MemoryLayout} (hc : c.graph.node? c.id = some c.node)
    (h : Gives (CLike.handler c) s ks s') :
    ∃ k, ks = [k] ∧ Linear.EmittedFor c.target c.graph c.id k := by
  obtain ⟨entries, k, hentries, hk, rfl⟩ := handler_gives_iff.1 h
  obtain ⟨hname, hkind, hlaunch, hprovides⟩ :=
    kernel_ok hk (List.nodup_cons.1 (Linear.nodup_bindings hentries)).2
  exact ⟨k, rfl, ⟨_, c, entries, s, s', rfl, rfl, hc, hentries, hprovides, hname, hkind⟩,
    .serial hlaunch⟩

theorem Wgsl.handler_gives {c : KernelContext α Target} (hc : c.graph.node? c.id = some c.node)
    (hsize : 0 < c.target.workgroupSize) (h : Gives (Wgsl.handler c) s ks s') :
    ∃ k, ks = [k] ∧ Linear.EmittedFor c.target.layout c.graph c.id k := by
  obtain ⟨entries, k, hentries, hk, rfl⟩ := handler_gives_iff.1 h
  obtain ⟨hname, hkind, hlaunch, hprovides⟩ := kernel_ok hk (Linear.nodup_bindings hentries)
  refine ⟨k, rfl, ⟨_, c, entries, s, s', rfl, rfl, hc, hentries, hprovides.tail, hname, hkind⟩, ?_⟩
  exact .compute hlaunch (by decide) hsize (hprovides.int (List.mem_cons_self ..)).1

theorem CLike.handler_fills {c : KernelContext α MemoryLayout} (hc : c.graph.node? c.id = some c.node)
    (h : Gives (CLike.handler c) s ks s') :
    ∃ k, ks = [k] ∧ Linear.FilledFor c.target c.graph c.id k := by
  obtain ⟨entries, k, hentries, hk, rfl⟩ := handler_gives_iff.1 h
  simp only [kernel, bind_ok_iff, pure_ok_iff] at hk
  obtain ⟨injected, hinjected, rfl⟩ := hk
  exact ⟨_, rfl, ⟨_, c, entries, s, s', _, _, injected, rfl, rfl, hc, hentries, by simp,
    .inl ⟨rfl, rfl⟩, hinjected, rfl, rfl, rfl, rfl⟩, rfl⟩

theorem Wgsl.handler_fills {c : KernelContext α Target} (hc : c.graph.node? c.id = some c.node)
    (h : Gives (Wgsl.handler c) s ks s') :
    ∃ k, ks = [k] ∧ Linear.FilledFor c.target.layout c.graph c.id k := by
  obtain ⟨entries, k, hentries, hk, rfl⟩ := handler_gives_iff.1 h
  simp only [kernel, bind_ok_iff, mapError_ok_iff, pure_ok_iff] at hk
  obtain ⟨injected, hinjected, rfl⟩ := hk
  exact ⟨_, rfl, ⟨_, c, entries, s, s', _, _, injected, rfl, rfl, hc, hentries, by simp,
    .inr ⟨_, _, rfl, rfl⟩, hinjected, rfl, rfl, rfl, rfl⟩, rfl⟩

theorem Glsl.handler_gives {c : KernelContext α Target} (hc : c.graph.node? c.id = some c.node)
    (h : Gives (Glsl.handler c) s ks s') :
    ∃ k, ks = [k] ∧ Glsl.EmittedFor c.target c.graph c.id k := by
  obtain ⟨entries, k, s₁, hentries, hk, rfl⟩ := handler_gives_iff.1 h
  obtain ⟨y, t, hy, ht, hname, hkind, hlaunch, hprovides⟩ :=
    kernel_gives hk (nodup_bindings hentries)
  exact ⟨k, rfl, c, entries, s, s₁, y, t, rfl, rfl, hc, rfl, hentries, hprovides, hname, hkind, hy,
    texture_ok_iff.1 ht, hlaunch⟩

end

/-! ## Generation -/

section

variable {α τ : Type} {g : Graph α} {config : Config} {d : Descriptor α} {s s' : Supply}

theorem Backend.assignHandlers_gives {backend : Backend α τ} {handlers : Handlers α τ}
    {ops : List OpId} {work : List (OpId × Node α × Handler α τ)}
    (h : Gives (backend.assignHandlers handlers g ops) s work s') :
    List.Forall₂ (fun o e => ∃ node handle, g.node? o = some node ∧
      handlers node.op.kind = some handle ∧ e = (o, node, handle)) ops work := by
  refine (forall₂_of_gives_mapM h).imp fun o e => ?_
  rintro ⟨r, r', h⟩
  simp only [gives_bind_iff, generates_graph_iff, Graph.operator_ok_iff] at h
  obtain ⟨node, _, ⟨hnode, rfl⟩, h⟩ := h
  split at h
  · next handle hhandle =>
    exact ⟨node, handle, hnode, hhandle, (gives_pure_iff.1 h).1.symm⟩
  · exact (gives_throw_iff.1 h).elim

/-- The steps of a generation: the kernels of every operator, in topological order. -/
theorem Backend.generate_gives {backend : Backend α τ} {handlers : Handlers α τ}
    (h : Gives (backend.generate handlers g config) s d s') :
    ∃ target ops parts s₁, Gives (backend.prepare g config) s target s₁ ∧
      g.topologicalOrder = .ok ops ∧
      List.Forall₂ (fun o ks => ∃ node handle r r', g.node? o = some node ∧
        handlers node.op.kind = some handle ∧
        Gives (handle { target, graph := g, config, id := o, node }) r ks r') ops parts ∧
      d.kernels = parts.flatten ∧ d.layout = backend.layout target ∧
      backend.constants target g = .ok d.constants := by
  simp only [Backend.generate, gives_bind_iff, generates_graph_iff] at h
  obtain ⟨target, s₁, htarget, ops, s₂, ⟨hops, rfl⟩, work, s₃, hwork, kernels, s₄, hkernels, h⟩ := h
  split at h
  · simp only [gives_bind_iff, gives_throw_iff, false_and, exists_false] at h
  · simp only [gives_bind_iff, generates_graph_iff, gives_pure_iff] at h
    obtain ⟨constants, _, ⟨hconstants, rfl⟩, rfl, rfl⟩ := h
    refine ⟨target, ops, kernels, s₁, htarget, hops, ?_, rfl, rfl, hconstants⟩
    refine (forall₂_comp (assignHandlers_gives hwork) (forall₂_of_gives_mapM hkernels)).imp ?_
    rintro o ks ⟨_, ⟨node, handle, hnode, hhandle, rfl⟩, r, r', hks⟩
    exact ⟨node, handle, r, r', hnode, hhandle, hks⟩

theorem flatten_of_singletons {β γ : Type} {R : β → γ → Prop} {xs : List β} {parts : List (List γ)}
    (h : List.Forall₂ (fun x ys => ∃ y, ys = [y] ∧ R x y) xs parts) :
    List.Forall₂ R xs parts.flatten := by
  induction h with
  | nil => exact .nil
  | cons hx _ ih =>
    obtain ⟨y, rfl, hy⟩ := hx
    exact .cons hy ih

/-- If every handler makes one kernel, generation gives one kernel for each operator. -/
theorem Backend.forall₂_of_generate {backend : Backend α τ} {handlers : Handlers α τ}
    {R : τ → OpId → Kernel α → Prop}
    (hR : ∀ target s₁, Gives (backend.prepare g config) s target s₁ → ∀ o n handle r ks r',
      g.node? o = some n → handlers n.op.kind = some handle →
      Gives (handle ⟨target, g, config, o, n⟩) r ks r' → ∃ k, ks = [k] ∧ R target o k)
    (h : Gives (backend.generate handlers g config) s d s') :
    ∃ target ops s₁, Gives (backend.prepare g config) s target s₁ ∧
      g.topologicalOrder = .ok ops ∧ List.Forall₂ (R target) ops d.kernels ∧
      d.layout = backend.layout target ∧ backend.constants target g = .ok d.constants := by
  obtain ⟨target, ops, parts, s₁, htarget, hops, hall, hkernels, hd, hconstants⟩ :=
    Backend.generate_gives h
  refine ⟨target, ops, s₁, htarget, hops, ?_, hd, hconstants⟩
  rw [hkernels]
  refine flatten_of_singletons (hall.imp fun o ks => ?_)
  rintro ⟨n, handle, r, r', hn, hhandle, hks⟩
  exact hR target s₁ htarget o n handle r ks r' hn hhandle hks

theorem Wgsl.prepare_gives [Scalar α] {target : Target} {s₁ : Supply}
    (h : Gives (backend.prepare g config) s target s₁) :
    0 < target.workgroupSize ∧ Gives (MemoryLayout.allocate g) s target.layout s₁ := by
  simp only [backend, gives_bind_iff, generates_graphM_iff, gives_pure_iff] at h
  obtain ⟨layout, _, hlayout, rfl, rfl⟩ := h
  exact ⟨Nat.lt_of_lt_of_le Nat.one_pos (Nat.le_max_right _ _), hlayout⟩

/-- If the handlers of both linear backends make one kernel, generation gives one kernel for each
operator over the layout of the graph. -/
theorem Linear.forall₂_of_generate [Scalar α] [ScalarText α] {kind : BackendKind}
    {R : MemoryLayout → OpId → Kernel α → Prop} (hkind : kind ≠ .webGl)
    (hC : ∀ (c : KernelContext α MemoryLayout) r ks r', c.graph = g → g.node? c.id = some c.node →
      Gives (CLike.handler c) r ks r' → ∃ k, ks = [k] ∧ R c.target c.id k)
    (hWgsl : ∀ (c : KernelContext α Wgsl.Target) r ks r', c.graph = g → g.node? c.id = some c.node →
      0 < c.target.workgroupSize → Gives (Wgsl.handler c) r ks r' →
      ∃ k, ks = [k] ∧ R c.target.layout c.id k)
    (h : Gives (g.generate kind config) s d s') :
    ∃ layout ops s₁, Gives (MemoryLayout.allocate g) s layout s₁ ∧ g.topologicalOrder = .ok ops ∧
      List.Forall₂ (R layout) ops d.kernels ∧ d.layout = .memory layout ∧
      layout.constants g = .ok d.constants := by
  cases kind with
  | webAssembly =>
    obtain ⟨layout, ops, s₁, hlayout, hops, hall, hd, hconstants⟩ :=
      Backend.forall₂_of_generate (R := R) (fun _ _ _ o n handle r ks r' hn hhandle hks => by
        obtain rfl := Option.some.inj hhandle
        exact hC _ r ks r' rfl hn hks) h
    exact ⟨layout, ops, s₁, generates_graphM_iff.1 hlayout, hops, hall, hd, hconstants⟩
  | webGpu =>
    obtain ⟨target, ops, s₁, htarget, hops, hall, hd, hconstants⟩ :=
      Backend.forall₂_of_generate (R := fun target => R target.layout)
        (fun _ _ htarget o n handle r ks r' hn hhandle hks => by
          obtain rfl := Option.some.inj hhandle
          exact hWgsl _ r ks r' rfl hn (Wgsl.prepare_gives htarget).1 hks) h
    exact ⟨target.layout, ops, s₁, (Wgsl.prepare_gives htarget).2, hops, hall, hd, hconstants⟩
  | webGl => exact absurd rfl hkind

/-- On a linear backend, one kernel for each operator over the layout of the graph. -/
theorem generate_linear [Scalar α] [ScalarText α] {kind : BackendKind} (hkind : kind ≠ .webGl)
    (h : Gives (g.generate kind config) s d s') :
    ∃ layout ops s₁, Gives (MemoryLayout.allocate g) s layout s₁ ∧ g.topologicalOrder = .ok ops ∧
      List.Forall₂ (Linear.EmittedFor layout g) ops d.kernels ∧ d.layout = .memory layout ∧
      layout.constants g = .ok d.constants :=
  Linear.forall₂_of_generate hkind
    (fun _ _ _ _ hg hn hks => hg ▸ CLike.handler_gives (hg ▸ hn) hks)
    (fun _ _ _ _ hg hn hsize hks => hg ▸ Wgsl.handler_gives (hg ▸ hn) hsize hks) h

/-- C-like kernels are started on one thread. -/
theorem CLike.serial_of_generate [Scalar α] [ScalarText α]
    (h : Gives (g.generate .webAssembly config) s d s') :
    ∀ k ∈ d.kernels, k.launch = .serial := by
  obtain ⟨_, _, _, _, _, hall, -, -⟩ := Backend.forall₂_of_generate
    (R := fun _ _ k => k.launch = .serial) (fun _ _ _ o n handle r ks r' hn hhandle hks => by
      obtain rfl := Option.some.inj hhandle
      obtain ⟨entries, k, hentries, hk, rfl⟩ := CLike.handler_gives_iff.1 hks
      exact ⟨k, rfl, (CLike.kernel_ok hk
        (List.nodup_cons.1 (Linear.nodup_bindings hentries)).2).2.2.1⟩) h
  intro k hk
  obtain ⟨_, -, hserial⟩ := exists_of_forall₂_right hall hk
  exact hserial

/-- The templates of all kernels were filled with the bindings of their operators. -/
theorem filled_of_generate [Scalar α] [ScalarText α] {kind : BackendKind} (hkind : kind ≠ .webGl)
    (h : Gives (g.generate kind config) s d s') :
    ∃ layout ops s₁, Gives (MemoryLayout.allocate g) s layout s₁ ∧ g.topologicalOrder = .ok ops ∧
      List.Forall₂ (Linear.FilledFor layout g) ops d.kernels ∧ d.layout = .memory layout ∧
      layout.constants g = .ok d.constants :=
  Linear.forall₂_of_generate hkind
    (fun _ _ _ _ hg hn hks => hg ▸ CLike.handler_fills (hg ▸ hn) hks)
    (fun _ _ _ _ hg hn _ hks => hg ▸ Wgsl.handler_fills (hg ▸ hn) hks) h

/-- On the texture backend, one fragment kernel for each operator. -/
theorem generate_texture [Scalar α] [ScalarText α] (h : Gives (g.generate .webGl config) s d s') :
    ∃ layout ops, g.checkTextures config.maxTextureSize config.channelMode config.textureShapes =
        .ok () ∧ TextureLayout.allocate g config = .ok layout ∧ g.topologicalOrder = .ok ops ∧
      List.Forall₂ (Glsl.EmittedFor ⟨layout, config.channelMode.channels⟩ g) ops d.kernels ∧
      d.layout = .texture layout ∧ layout.constants g = .ok d.constants := by
  obtain ⟨target, ops, s₁, htarget, hops, hall, hd, hconstants⟩ :=
    Backend.forall₂_of_generate (R := fun target => Glsl.EmittedFor target g)
      (fun _ _ _ o n handle r ks r' hn hhandle hks => by
        obtain rfl := Option.some.inj hhandle
        exact Glsl.handler_gives hn hks) h
  simp only [Glsl.backend, gives_bind_iff, generates_pass_iff, generates_graph_iff,
    gives_pure_iff] at htarget
  obtain ⟨⟨⟩, _, ⟨hcheck, rfl⟩, layout, _, ⟨hlayout, rfl⟩, rfl, rfl⟩ := htarget
  exact ⟨layout, ops, hcheck, hlayout, hops, hall, hd, hconstants⟩

/-- A graph of a single data movement is compiled to C if its bindings can be written out. -/
theorem CLike.generates_movement [Scalar α] [ScalarText α] {o : OpId} {n : Node α}
    {layout : MemoryLayout}
    {entries : List (String × Binding α)} {data : Array α} {s₁ : Supply}
    (hn : g.node? o = some n) (hmove : ∀ f, n.op ≠ .pointwise f)
    (hops : g.topologicalOrder = .ok [o]) (hlayout : Gives (MemoryLayout.allocate g) s layout s₁)
    (hentries : Gives (Linear.movementBindings layout (⟨layout, g, config, o, n⟩ :
      KernelContext α MemoryLayout)) s₁ entries s')
    (hwrites : ∀ e ∈ entries, e.2.Writes) (hdata : layout.constants g = .ok data) :
    ∃ k, Linear.EmittedFor layout g o k ∧ Gives (g.generate .webAssembly config) s
      ⟨.webAssembly, [k], .memory layout, data⟩ s' := by
  let c : KernelContext α MemoryLayout := ⟨layout, g, config, o, n⟩
  obtain ⟨k, hk⟩ := CLike.exists_movementKernel (c := c) hentries hwrites
  have hhandler : Gives (CLike.handler c) s₁ [k] s' := by
    unfold CLike.handler
    split
    · next f hf => exact absurd hf (hmove f)
    · simp only [gives_bind_iff, generates_template_iff, gives_pure_iff]
      exact ⟨_, _, hentries, k, _, ⟨hk, rfl⟩, rfl, rfl⟩
  have hwork : Gives (CLike.backend.assignHandlers CLike.handlers g [o]) s₁
      [(o, n, CLike.handler)] s₁ := by
    refine gives_mapM_cons_iff.2 ⟨_, s₁, [], ?_, gives_mapM_nil_iff.2 ⟨rfl, rfl⟩, rfl⟩
    simp only [gives_bind_iff, generates_graph_iff, Graph.operator_ok_iff]
    exact ⟨n, s₁, ⟨hn, rfl⟩, gives_pure_iff.2 ⟨rfl, rfl⟩⟩
  obtain ⟨k', hk', hemitted⟩ := CLike.handler_gives (c := c) hn hhandler
  obtain rfl := List.singleton_inj.1 hk'
  refine ⟨k, hemitted, ?_⟩
  simp only [Graph.generate, Backend.generate, gives_bind_iff, generates_graph_iff]
  refine ⟨layout, s₁, generates_graphM_iff.2 hlayout, [o], s₁, ⟨hops, rfl⟩, _, s₁, hwork, [[k]], s',
    gives_mapM_cons_iff.2 ⟨[k], s', [], hhandler, gives_mapM_nil_iff.2 ⟨rfl, rfl⟩, rfl⟩, ?_⟩
  simp only [List.flatten_cons, List.flatten_nil, List.append_nil, List.map_cons, List.map_nil,
    firstRepeated?, List.not_mem_nil, if_false]
  simp only [gives_bind_iff, generates_graph_iff, gives_pure_iff]
  exact ⟨data, s', ⟨hdata, rfl⟩, rfl, rfl⟩

end

end TensorCompiler
