import TensorCompiler.Proofs.Initialization
import TensorCompiler.Proofs.InjectionErrors
import TensorCompiler.Proofs.Iteration
import TensorCompiler.Proofs.KernelText
import TensorCompiler.Proofs.Layouts
/-!
# What generation ends with

Generation from a valid graph either reports a fault that lies in the graph or in the configuration,
or gives one kernel for each operator. Handlers never fail on their own account: their templates can
be read, request what is bound, and have all operands at hand.

The result hinges on 64-bit words. An address of the buffer that holds both spaces is the sum of two
words, and the number of scalars of a texture is the product of three. Neither is checked.

* `GenerateError.Reported`: the errors that a backend may report.
* `Graph.FitsWords`: all addresses and numbers of scalars are words.
* `CLike.handler_error`, `Wgsl.handler_error`, `Glsl.handler_error`: how handlers fail.
* `Kernel.MadeFor`: a kernel named after its operator.
* `Graph.outcome_of_generate`: the theorem about generation.
* `Graph.repeated_uncountable`: a texture with more scalars than a word counts.
-/

namespace TensorCompiler

/-! ## Failures -/

section

variable {β : Type} {s : Supply} {e : GenerateError}

theorem raises_template_iff {x : Except TemplateError β} :
    Raises (liftM x : GenerateM β) s e ↔ ∃ f, x = .error f ∧ e = .template f := by
  show x.mapError GenerateError.template = .error e ↔ _
  simp only [mapError_error_iff, eq_comm (a := e)]

theorem raises_pass_iff {x : Except PassError β} :
    Raises (liftM x : GenerateM β) s e ↔ ∃ f, x = .error f ∧ e = .ofPass f := by
  show x.mapError GenerateError.ofPass = .error e ↔ _
  simp only [mapError_error_iff, eq_comm (a := e)]

theorem raises_generate_iff {x : Except GenerateError β} :
    Raises (liftM x : GenerateM β) s e ↔ x = .error e := Iff.rfl

theorem raises_graphM_iff {x : GraphM β} :
    Raises (liftM x : GenerateM β) s e ↔ ∃ f, Raises x s f ∧ e = .graph f := by
  show (Id.run (x.run.run s)).1.mapError GenerateError.graph = .error e ↔ _
  simp only [mapError_error_iff, Raises, eq_comm (a := e)]

end

/-- The errors that a backend may report for a valid graph. -/
def GenerateError.Reported (kind : BackendKind) : GenerateError → Prop
  | .template (.overflow _) => True
  | .template (.nonFinite _) => True
  | .iterationRank .. => kind = .webGl
  | .textureLimit .. => kind = .webGl
  | .pass (.graph (.unresolved _)) => kind = .webGl
  | _ => False

/-! ## Operands -/

namespace KernelContext

variable {α τ : Type} {c : KernelContext α τ}

/-- The operands can be read, have their places and fit the operator. -/
structure Ready (c : KernelContext α τ) (placed : VarId → Prop) (y : Operand) (xs : List Operand) :
    Prop where
  output : c.output = .ok y
  inputs : c.inputs = .ok xs
  outputPlaced : placed y.var
  inputsPlaced : ∀ x ∈ xs, placed x.var
  fits : c.node.op.Fits (xs.map (·.type)) y.type

theorem length_of_fits {op : Operator α} {inputs : List TensorType} {output : TensorType}
    (h : op.Fits inputs output) : inputs.length = op.kind.arity := by
  cases op with
  | pointwise f => exact h.1
  | _ =>
    obtain ⟨x, rfl, -⟩ := h
    rfl

variable {placed : VarId → Prop} {y : Operand} {xs : List Operand}

theorem Ready.arityMet (h : c.Ready placed y xs) : c.ArityMet := by
  intro inputs hinputs
  obtain rfl := Except.ok.inj (h.inputs.symm.trans hinputs)
  simpa using length_of_fits h.fits

/-- The only input of a data movement. -/
theorem Ready.soleOperand (h : c.Ready placed y xs) (hop : ∀ f, c.node.op ≠ .pointwise f) :
    ∃ x ∈ xs, c.soleOperand = .ok x := by
  have hlen := length_of_fits h.fits
  have harity : c.node.op.kind.arity = 1 := by
    cases hop' : c.node.op with
    | pointwise f => exact absurd hop' (hop f)
    | _ => rfl
  rw [harity, List.length_map] at hlen
  obtain ⟨x, rfl⟩ := List.length_eq_one_iff.1 hlen
  exact ⟨x, List.mem_singleton_self x, by rw [KernelContext.soleOperand, h.inputs]; rfl⟩

theorem exists_operands {g : Graph α} {ins : List VarId} {ts : List (Tensor α)}
    (h : List.Forall₂ (fun v t => g.tensor v = .ok t) ins ts) : ∃ xs : List Operand,
      List.Forall₂ (fun v x => ∃ t, g.tensor v = .ok t ∧ x = ⟨v, t.type⟩) ins xs ∧
        xs.map (·.var) = ins ∧ xs.map (·.type) = ts.map (·.type) := by
  induction h with
  | nil => exact ⟨[], .nil, rfl, rfl⟩
  | @cons v t _ _ ht _ ih =>
    obtain ⟨xs, hxs, hvars, htypes⟩ := ih
    exact ⟨⟨v, t.type⟩ :: xs, .cons ⟨t, ht, rfl⟩ hxs, congrArg (v :: ·) hvars,
      congrArg (t.type :: ·) htypes⟩

/-- The operands of an operator of the traversal. -/
theorem exists_ready {ops : List OpId} {vars : List VarId} (hg : c.graph.Wellformed)
    (htyped : c.graph.Typed) (hops : c.graph.topologicalOrder = .ok ops)
    (hvars : c.graph.reachable = .ok vars) (hplaced : ∀ v ∈ vars, placed v) (ho : c.id ∈ ops)
    (hn : c.graph.node? c.id = some c.node) : ∃ y xs, c.Ready placed y xs := by
  obtain ⟨n, t, hn', hslot, -⟩ := Graph.output_of_mem_topologicalOrder hg hops ho
  obtain rfl := Option.some.inj (hn.symm.trans hn')
  obtain ⟨ins, hins⟩ := (Graph.ordered_topologicalOrder hops).readable c.id ho
  obtain ⟨ts, hts⟩ := Graph.tensors_ok_of_inputsOf hins
  obtain ⟨xs, hxs, rfl, htypes⟩ := exists_operands (mapM_ok_iff.1 hts)
  have hmem := Graph.operands_reachable hops hvars ho hn hins
  refine ⟨⟨c.node.output, t.type⟩, xs, ?_, inputs_ok_iff.2 ⟨_, hins, hxs⟩, ?_, fun x hx => ?_, ?_⟩
  · exact output_ok_iff.2 ⟨_, t, Graph.resolve_of_live hslot, Graph.tensor_ok_iff.2 ⟨_, hslot⟩, rfl⟩
  · exact hplaced _ (hmem _ (List.mem_cons_self ..))
  · exact hplaced _ (hmem _ (List.mem_cons_of_mem _ (List.mem_map_of_mem hx)))
  · rw [htypes]
    exact htyped c.id _ _ ts t _ hn hins hts hslot

end KernelContext

/-! ## Bindings -/

section

variable {α τ : Type} {s s' : Supply} {P : GenerateError → Prop}

/-- The bindings of a kernel over linear memory can always be made. -/
theorem Linear.raisesOnly_bindings {c : KernelContext α τ} {layout : MemoryLayout} {y : Operand}
    {xs : List Operand} (hc : c.Ready (fun v => ∃ a, layout.get? v = some a) y xs) :
    RaisesOnly (Linear.bindings layout c) s P := by
  have placed : ∀ {v}, (∃ a, layout.get? v = some a) → ∃ a, layout.placement v = .ok a :=
    fun ⟨a, ha⟩ => ⟨a, placement_ok_iff.2 ha⟩
  obtain ⟨a, ha⟩ := placed hc.outputPlaced
  unfold Linear.bindings
  split
  · refine .step (generates_graph_iff.2 ⟨hc.output, rfl⟩) (.step (generates_graph_iff.2
      ⟨hc.inputs, rfl⟩) (.fresh fun order s₁ _ => ?_))
    refine .step (generates_except_iff.2 ⟨ha, rfl⟩) (.fresh fun size s₂ _ => ?_)
    refine .bind (.mapM fun e he s => ?_) fun _ _ _ => .pure
    obtain ⟨b, hb⟩ := placed (hc.inputsPlaced e.2.1 (List.of_mem_zip (List.of_mem_zip he).2).1)
    exact .step (generates_except_iff.2 ⟨hb, rfl⟩) .pure
  · next hop =>
    obtain ⟨x, hx, hsole⟩ := hc.soleOperand fun f hf => hop f hf
    obtain ⟨b, hb⟩ := placed (hc.inputsPlaced x hx)
    refine .step (generates_graph_iff.2 ⟨hc.output, rfl⟩) (.step (generates_graph_iff.2
      ⟨hsole, rfl⟩) ?_)
    refine .step (generates_except_iff.2 ⟨ha, rfl⟩) (.step (generates_except_iff.2 ⟨hb, rfl⟩) ?_)
    exact RaisesOnly.fresh fun _ _ _ => RaisesOnly.fresh fun _ _ _ => .pure

end

theorem checkRank_error {rank ceiling : Nat} {e : GenerateError}
    (h : checkRank rank ceiling = .error e) : e = .iterationRank rank ceiling := by
  unfold checkRank at h
  split at h
  · cases h
  · exact (Except.error.inj h).symm

theorem padTable_error {values : List Dim} {ceiling neutral : Nat} {e : GenerateError}
    (h : padTable values ceiling neutral = .error e) : ∃ rank, e = .iterationRank rank ceiling := by
  rcases bind_error_iff.1 h with h | ⟨-, -, h⟩
  · exact ⟨_, checkRank_error h⟩
  · cases h

theorem pad_error {order : IterationOrder} {ceiling : Nat} {e : GenerateError}
    (h : order.pad ceiling = .error e) : ∃ rank, e = .iterationRank rank ceiling := by
  rcases bind_error_iff.1 h with h | ⟨-, -, h⟩
  · exact ⟨_, checkRank_error h⟩
  rcases bind_error_iff.1 h with h | ⟨shape, -, h⟩
  · exact padTable_error h
  rcases bind_error_iff.1 h with h | ⟨strides, -, h⟩
  · obtain ⟨table, -, h⟩ := exists_of_mapM_error h
    exact padTable_error h
  · cases h

namespace Glsl

variable {α : Type} {c : KernelContext α Target} {y : Operand} {xs : List Operand} {s : Supply}

/-- The rank of a loop is too high. -/
def RankFault (e : GenerateError) : Prop := ∃ rank, e = .iterationRank rank maxRank

/-- The bindings of a fragment kernel can be made unless the rank is too high. -/
theorem raisesOnly_bindings (hc : c.Ready (fun v => ∃ a, c.target.layout.get? v = some a) y xs) :
    RaisesOnly (Glsl.bindings c) s RankFault := by
  obtain ⟨t, ht⟩ := hc.outputPlaced
  have output : ∀ s, RaisesOnly (outputBindings c y) s RankFault := fun s =>
    .fresh fun size s₁ _ => .step (generates_except_iff.2 ⟨texture_ok_iff.2 ht, rfl⟩) .pure
  have sampled : ∀ x ∈ xs, ∀ name,
      ∃ entries, sampledBindings (α := α) c.target name x.var = .ok entries := fun x hx name => by
    obtain ⟨u, hu⟩ := hc.inputsPlaced x hx
    exact ⟨_, sampledBindings_ok_iff.2 ⟨u, hu, rfl⟩⟩
  have padded : ∀ values neutral s,
      RaisesOnly (liftM (padTable values maxRank neutral) : GenerateM (List Dim)) s RankFault :=
    fun _ _ _ _ h => padTable_error (raises_generate_iff.1 h)
  unfold Glsl.bindings
  split
  · refine .step (generates_graph_iff.2 ⟨hc.output, rfl⟩) (.step (generates_graph_iff.2
      ⟨hc.inputs, rfl⟩) (.fresh fun order s₁ _ => ?_))
    refine .bind (fun _ h => pad_error (raises_generate_iff.1 h)) fun order' s₂ _ => ?_
    refine .bind (output s₂) fun entries s₃ _ => .bind (.mapM fun e he s => ?_) fun _ _ _ => .pure
    obtain ⟨es, hes⟩ := sampled e.2.1 (List.of_mem_zip (List.of_mem_zip he).2).1 e.1
    exact .step (generates_except_iff.2 ⟨hes, rfl⟩) .pure
  · next hop =>
    obtain ⟨x, hx, hsole⟩ := hc.soleOperand fun f hf => hop f hf
    obtain ⟨es, hes⟩ := sampled x hx "x"
    refine .step (generates_graph_iff.2 ⟨hc.output, rfl⟩) (.step (generates_graph_iff.2
      ⟨hsole, rfl⟩) (.bind (output s) fun entries s₁ _ => ?_))
    refine .bind (padded _ _ _) fun shape s₂ _ => .fresh fun strides s₃ _ => ?_
    refine .bind (padded _ _ _) fun strides s₄ _ => .step (generates_except_iff.2 ⟨hes, rfl⟩) ?_
    exact .bind (.mapM fun e _ s => .bind (padded _ _ _) fun _ _ _ => .pure) fun _ _ _ => .pure

end Glsl

/-! ## What kernels over linear memory are bound to -/

/-- A binding of a kernel over linear memory: a region of the layout, a scalar, or dimensions of a
kind. -/
inductive Binding.Made {α : Type} (layout : MemoryLayout) (P : Dim → Prop) : Binding α → Prop
  | region {v : VarId} {a : Allocation} : layout.get? v = some a → Made layout P (.buffer a)
  | scalar {x : α} : Made layout P (.float x)
  | int {x : Dim} : P x → Made layout P (.int x)
  | ints {xs : List Dim} : (∀ x ∈ xs, P x) → Made layout P (.ints xs)

theorem Binding.made_of_parameterBindings {α : Type} {layout : MemoryLayout} {P : Dim → Prop}
    (f : Pointwise α) : ∀ e ∈ f.parameterBindings, e.2.Made layout P := by
  cases f with
  | affine scale bias => simp [Pointwise.parameterBindings, Binding.Made.scalar]
  | _ => simp [Pointwise.parameterBindings]

/-- The tables of a movement hold sizes of its input, and the starts and steps of a slice. -/
theorem Operator.forall_movementTables {α : Type} {op : Operator α} {x : TensorType}
    {P : Dim → Prop} (hx : ∀ d ∈ x.shape, P d)
    (hslice : ∀ start stop step, op = .slice start stop step → ∀ k ∈ start ++ step, P (.known k)) :
    ∀ e ∈ op.movementTables x, ∀ d ∈ e.2, P d := by
  cases op with
  | slice start stop step =>
    obtain ⟨hstart, hstep⟩ := List.forall_mem_append.1 (hslice start stop step rfl)
    simp only [Operator.movementTables, List.forall_mem_cons, List.forall_mem_map,
      List.not_mem_nil, false_implies, implies_true, and_true]
    exact ⟨hstart, hstep⟩
  | tile _ => exact List.forall_mem_singleton.2 hx
  | resize _ _ _ _ => exact List.forall_mem_singleton.2 hx
  | _ => simp [Operator.movementTables]

/-- A kernel is bound to regions, to the parameters of its operator, and to sizes and strides of its
operands. -/
theorem Linear.made_of_bindings {α τ : Type} {c : KernelContext α τ} {layout : MemoryLayout}
    {P : Dim → Prop} {placed : VarId → Prop} {y : Operand} {xs : List Operand}
    {entries : List (String × Binding α)} {s s' : Supply} (hc : c.Ready placed y xs)
    (hall : ∀ t ∈ y.type :: xs.map (·.type), t.All P) (hzero : P (.known 0))
    (hrank : P (.known y.type.rank))
    (hslice : ∀ start stop step, c.node.op = .slice start stop step →
      ∀ k ∈ start ++ step, P (.known k))
    (h : Gives (Linear.bindings layout c) s entries s') : ∀ e ∈ entries, e.2.Made layout P := by
  have hy := hall y.type (List.mem_cons_self ..)
  unfold Linear.bindings at h
  split at h
  · next f hf =>
    obtain ⟨y', xs', order, place, size, s₁, operands, hy', hxs', horder, hplace, hsize, hparts, rfl⟩ :=
      pointwiseBindings_gives h
    obtain rfl := Except.ok.inj (hc.output.symm.trans hy')
    obtain rfl := Except.ok.inj (hc.inputs.symm.trans hxs')
    obtain ⟨hshape, hstrides⟩ := forall_unify hall hzero horder
    obtain ⟨hrank', hshape', -⟩ := unify_of_fits (hf ▸ hc.fits) horder
    rw [IterationOrder.size, hshape'] at hsize
    have hhead : ∀ d ∈ order.strides.headD [], P d := by
      cases hs : order.strides with
      | nil => simp
      | cons ds rest => exact hstrides ds (hs ▸ List.mem_cons_self ..)
    have hoperands : ∀ e ∈ operands.flatten, e.2.Made layout P := by
      intro e he
      obtain ⟨es, hes, he⟩ := List.mem_flatten.1 he
      obtain ⟨operand, hoperand, place, hplace, rfl⟩ := exists_of_forall₂_right hparts hes
      have hmem : operand.2.2 ∈ order.strides :=
        List.mem_of_mem_tail (List.of_mem_zip (List.of_mem_zip hoperand).2).2
      rcases List.mem_pair.1 he with rfl | rfl
      · exact .region hplace
      · exact .ints (hstrides _ hmem)
    refine List.forall_mem_append.2
      ⟨List.forall_mem_append.2 ⟨?_, hoperands⟩, Binding.made_of_parameterBindings f⟩
    simp only [List.forall_mem_cons, List.not_mem_nil, false_implies, implies_true, and_true]
    exact ⟨.region hplace, .ints hhead, .ints hshape, .int (hy.size _ _ _ hsize),
      .int (hrank' ▸ hrank)⟩
  · obtain ⟨y', x, place, input, strides, size, s₁, hy', hx, hplace, hinput, hstrides, hsize, rfl⟩ :=
      movementBindings_gives h
    obtain rfl := Except.ok.inj (hc.output.symm.trans hy')
    obtain rfl := Except.ok.inj (hc.inputs.symm.trans hx)
    have hx := hall x.type (List.mem_cons_of_mem _ (List.mem_singleton_self _))
    refine List.forall_mem_append.2 ⟨?_, List.forall_mem_map.2 fun e he =>
      .ints (Operator.forall_movementTables hx.shape hslice e he)⟩
    simp only [List.forall_mem_cons, List.not_mem_nil, false_implies, implies_true, and_true]
    exact ⟨.region hplace, .region hinput, .ints hy.shape, .ints (hx.strides _ _ _ hstrides),
      .int (hy.size _ _ _ hsize), .int hrank⟩

/-! ## Words -/

/-- The integers of tensors and operators are words. -/
structure Graph.InWords {α : Type} (g : Graph α) : Prop where
  ranks : ∀ v t, g.tensor v = .ok t → t.type.rank < wordLimit
  shapes : ∀ v t, g.tensor v = .ok t → ∀ d ∈ t.type.shape, d.IsWord
  slices : ∀ o n start stop step, g.operator o = .ok n → n.op = .slice start stop step →
    ∀ k ∈ start ++ step, k < wordLimit

/-- Every region has an address in a buffer that begins with the static space. -/
def MemoryLayout.Addressable (layout : MemoryLayout) : Prop :=
  ∀ v a, layout.get? v = some a → a.space.base layout.staticSize + a.offset.stored < wordLimit

/-- The addresses and the numbers of scalars that generation computes are words. -/
def Graph.FitsWords {α : Type} (g : Graph α) (kind : BackendKind) (config : Config) (s : Supply) :
    Prop :=
  match kind with
  | .webAssembly => True
  | .webGpu => g.InWords ∧ config.workgroupSize < wordLimit ∧
      ∀ layout s', Gives (MemoryLayout.allocate g) s layout s' → layout.Addressable
  | .webGl => ¬g.Uncountable config

section

variable {α τ : Type} {c : KernelContext α τ} {layout : MemoryLayout}
  {entries : List (String × Binding α)} {s s' : Supply}

theorem stored_lt {d : Dim} (h : d.IsWord) : d.stored < wordLimit := by
  cases hd : d.known? with
  | none =>
    rw [stored_symbolic hd]
    decide
  | some n =>
    rw [stored_known hd]
    exact h n hd

/-- The operands are variables with their types. -/
theorem KernelContext.Ready.operand {placed : VarId → Prop} {y : Operand} {xs : List Operand}
    (hc : c.Ready placed y xs) : ∀ x ∈ y :: xs,
      placed x.var ∧ ∃ t, c.graph.tensor x.var = .ok t ∧ t.type = x.type := by
  obtain ⟨_, ty, -, hty, rfl⟩ := output_ok_iff.1 hc.output
  obtain ⟨ins, -, hxs⟩ := inputs_ok_iff.1 hc.inputs
  refine List.forall_mem_cons.2 ⟨⟨hc.outputPlaced, ty, hty, rfl⟩, fun x hx => ?_⟩
  obtain ⟨v, -, t, ht, rfl⟩ := exists_of_forall₂_right hxs hx
  exact ⟨hc.inputsPlaced _ hx, t, ht, rfl⟩

/-- The types of the operands are those of variables. -/
theorem KernelContext.Ready.types {placed : VarId → Prop} {y : Operand} {xs : List Operand}
    (hc : c.Ready placed y xs) : ∀ t ∈ y.type :: xs.map (·.type),
      ∃ v u, placed v ∧ c.graph.tensor v = .ok u ∧ u.type = t := by
  refine List.forall_mem_map (l := y :: xs).2 fun x hx => ?_
  obtain ⟨hplaced, t, ht, htype⟩ := hc.operand x hx
  exact ⟨_, t, hplaced, ht, htype⟩

/-- The integers of a kernel over linear memory, and the addresses of its regions, are words. -/
theorem Linear.words_of_bindings (hw : c.graph.InWords) (ha : layout.Addressable)
    (hn : c.graph.node? c.id = some c.node) {y : Operand} {xs : List Operand}
    {placed : VarId → Prop} (hc : c.Ready placed y xs)
    (h : Gives (Linear.bindings layout c) s entries s') :
    ∀ e ∈ entries, ∀ n ∈ e.2.numbers (.wgsl layout.staticSize), n < wordLimit := by
  have hall : ∀ t ∈ y.type :: xs.map (·.type), t.All Dim.IsWord := by
    intro t ht
    obtain ⟨v, u, -, hu, rfl⟩ := hc.types t ht
    exact allWords (hw.shapes v u hu)
  have hrank : y.type.rank < wordLimit := by
    obtain ⟨v, u, -, hu, hty⟩ := hc.types y.type (List.mem_cons_self ..)
    exact hty ▸ hw.ranks v u hu
  have hslice : ∀ start stop step, c.node.op = .slice start stop step →
      ∀ k ∈ start ++ step, (Dim.known k).IsWord := fun start stop step hop k hk =>
    isWord_known (hw.slices _ _ start stop step (Graph.operator_ok_iff.2 hn) hop k hk)
  rintro ⟨name, b⟩ he n hn
  have hmade : b.Made layout Dim.IsWord := Linear.made_of_bindings hc hall
    (isWord_known (by decide)) (isWord_known hrank) hslice h _ he
  cases hmade with
  | region hv => exact List.mem_singleton.1 hn ▸ ha _ _ hv
  | scalar => cases hn
  | int hx => exact List.mem_singleton.1 hn ▸ stored_lt hx
  | ints hxs =>
    obtain ⟨x, hx, rfl⟩ := List.mem_map.1 hn
    exact stored_lt (hxs x hx)

end

/-! ## Handlers -/

section

variable {α : Type} [ScalarText α] {y : Operand} {xs : List Operand} {s : Supply}

omit [ScalarText α] in
theorem reported_of_fails {kind : BackendKind} {d : Dialect} {b : Binding α} {e : TemplateError}
    (h : b.Fails d e) : (GenerateError.template e).Reported kind := by
  cases h <;> trivial

theorem CLike.handler_error {c : KernelContext α MemoryLayout}
    (hc : c.Ready (fun v => ∃ a, c.target.get? v = some a) y xs) :
    RaisesOnly (CLike.handler c) s (GenerateError.Reported .webAssembly) := by
  rw [handler_eq]
  refine .bind (Linear.raisesOnly_bindings hc) fun entries s₁ hentries =>
    .bind (fun e h => ?_) fun _ _ _ => .pure
  obtain ⟨f, hf, rfl⟩ := raises_template_iff.1 h
  rcases bind_error_iff.1 hf with hf | ⟨injected, -, hf⟩
  · obtain ⟨name, b, -, hb⟩ := (serves hc.arityMet hentries).error hf
    exact reported_of_fails hb
  · cases hf

theorem Wgsl.handler_error {c : KernelContext α Target} (hw : c.graph.InWords)
    (hsize : c.target.workgroupSize < wordLimit) (ha : c.target.layout.Addressable)
    (hn : c.graph.node? c.id = some c.node)
    (hc : c.Ready (fun v => ∃ a, c.target.layout.get? v = some a) y xs) :
    RaisesOnly (Wgsl.handler c) s (GenerateError.Reported .webGpu) := by
  rw [handler_eq]
  refine .bind (Linear.raisesOnly_bindings hc) fun entries s₁ hentries =>
    .bind (fun e h => ?_) fun _ _ _ => .pure
  rcases bind_error_iff.1 (raises_generate_iff.1 h) with h | ⟨injected, -, h⟩
  · obtain ⟨f, hf, rfl⟩ := mapError_error_iff.1 h
    obtain ⟨name, b, hb, hfails⟩ := (serves hc.arityMet hentries _ _).error hf
    cases hfails with
    | nonFinite => trivial
    | @overflow n hmem =>
      have hlt : n < wordLimit := by
        rcases List.mem_cons.1 (Bindings.mem_of_get?_ofList hb) with heq | hb
        · cases heq
          exact List.mem_singleton.1 hmem ▸ hsize
        · exact Linear.words_of_bindings hw ha hn hc hentries _ hb n hmem
      rw [GenerateError.ofAddressing, if_pos hlt]
      trivial
  · cases h

theorem Glsl.handler_error {c : KernelContext α Target}
    (hc : c.Ready (fun v => ∃ a, c.target.layout.get? v = some a) y xs) :
    RaisesOnly (Glsl.handler c) s (GenerateError.Reported .webGl) := by
  rw [handler_eq]
  refine .bind (fun e h => ?_) fun entries s₁ hentries => .bind ?_ fun _ _ _ => .pure
  · obtain ⟨rank, rfl⟩ := raisesOnly_bindings hc e h
    rfl
  · obtain ⟨t, ht⟩ := hc.outputPlaced
    refine .step (generates_graph_iff.2 ⟨hc.output, rfl⟩) (.step (generates_except_iff.2
      ⟨texture_ok_iff.2 ht, rfl⟩) (.bind (fun e h => ?_) fun _ _ _ => .pure))
    obtain ⟨f, hf, rfl⟩ := raises_template_iff.1 h
    obtain ⟨name, b, -, hb⟩ := (serves hc.arityMet hentries).error hf
    exact reported_of_fails hb

end

/-! ## Generation -/

/-- A kernel is named after its operator, and no delimiter is left in its source. -/
structure Kernel.MadeFor {α : Type} (g : Graph α) (o : OpId) (k : Kernel α) : Prop where
  named : ∃ n, g.operator o = .ok n ∧ k.kind = n.op.kind ∧ k.name = n.op.kind.text ++ s!"_{o.index}"
  clean : ¬['%', '%'] <:+: k.source.toList

/-- There is a handler for every kind, and it makes one kernel. -/
def Handlers.Make {α τ : Type} (handlers : Handlers α τ) : Prop :=
  ∀ kind, ∃ handle, handlers kind = some handle ∧ ∀ c s ks s', c.graph.node? c.id = some c.node →
    Gives (handle c) s ks s' → ∃ k, ks = [k] ∧ k.MadeFor c.graph c.id

section

variable {α : Type} [ScalarText α] [PlainText α]

theorem CLike.handlers_make : Handlers.Make (CLike.handlers (α := α)) := by
  intro kind
  refine ⟨_, rfl, fun c s ks s' hn h => ?_⟩
  obtain ⟨entries, k, hentries, hk, rfl⟩ := handler_gives_iff.1 h
  obtain ⟨hname, hkind, -⟩ := kernel_ok hk (List.nodup_cons.1 (Linear.nodup_bindings hentries)).2
  have hplain := isPlain_kernel (BackendKind.wellFormed_template _ _) hk
  exact ⟨k, rfl, ⟨c.node, Graph.operator_ok_iff.2 hn, hkind, hname⟩, not_infix_of_isPlain hplain⟩

theorem Wgsl.handlers_make : Handlers.Make (Wgsl.handlers (α := α)) := by
  intro kind
  refine ⟨_, rfl, fun c s ks s' hn h => ?_⟩
  obtain ⟨entries, k, hentries, hk, rfl⟩ := handler_gives_iff.1 h
  obtain ⟨hname, hkind, -⟩ := kernel_ok hk (Linear.nodup_bindings hentries)
  have hplain := isPlain_kernel (BackendKind.wellFormed_template _ _) hk
  exact ⟨k, rfl, ⟨c.node, Graph.operator_ok_iff.2 hn, hkind, hname⟩, not_infix_of_isPlain hplain⟩

theorem Glsl.handlers_make : Handlers.Make (Glsl.handlers (α := α)) := by
  intro kind
  refine ⟨_, rfl, fun c s ks s' hn h => ?_⟩
  obtain ⟨entries, k, s₁, hentries, hk, rfl⟩ := handler_gives_iff.1 h
  obtain ⟨y, t, -, -, hname, hkind, -⟩ := kernel_gives hk (nodup_bindings hentries)
  have hplain := isPlain_kernel (BackendKind.wellFormed_template _ _) hk
  exact ⟨k, rfl, ⟨c.node, Graph.operator_ok_iff.2 hn, hkind, hname⟩, not_infix_of_isPlain hplain⟩

end

/-- No name occurs a second time in a list of distinct ones. -/
theorem firstRepeated?_eq_none {seen names : List String} (hn : names.Nodup)
    (hd : ∀ name ∈ names, name ∉ seen) : firstRepeated? seen names = none := by
  induction names generalizing seen with
  | nil => rfl
  | cons name names ih =>
    obtain ⟨hname, hn⟩ := List.nodup_cons.1 hn
    obtain ⟨hseen, hd⟩ := List.forall_mem_cons.1 hd
    rw [firstRepeated?, if_neg hseen]
    refine ih hn fun other hother hmem => ?_
    rcases List.mem_cons.1 hmem with rfl | hmem
    · exact hname hother
    · exact hd other hother hmem

section

variable {α τ : Type} {g : Graph α} {config : Config} {ops : List OpId} {s s' : Supply}

/-- Kernels of different operators have different names. -/
theorem nodup_names {ks : List (Kernel α)} (h : List.Forall₂ (Kernel.MadeFor g) ops ks)
    (hn : ops.Nodup) : (ks.map (·.name)).Nodup := by
  induction h with
  | nil => exact List.nodup_nil
  | @cons o k ops ks hk hks ih =>
    obtain ⟨ho, hn⟩ := List.nodup_cons.1 hn
    refine List.nodup_cons.2 ⟨fun hmem => ho ?_, ih hn⟩
    obtain ⟨k', hk', heq⟩ := List.mem_map.1 hmem
    obtain ⟨o', ho', hmade⟩ := exists_of_forall₂_right hks hk'
    obtain ⟨n, -, -, hname⟩ := hk.named
    obtain ⟨n', -, -, hname'⟩ := hmade.named
    have hindex := index_of_name_eq (hname'.symm.trans (heq.trans hname))
    rwa [← show o' = o from congrArg OpId.mk hindex]

variable {backend : Backend α τ} {handlers : Handlers α τ}

theorem Handlers.Make.made {target : τ} {parts : List (List (Kernel α))} (hmake : handlers.Make)
    (h : List.Forall₂ (fun o ks => ∃ n handle r r', g.node? o = some n ∧
      handlers n.op.kind = some handle ∧ Gives (handle ⟨target, g, config, o, n⟩) r ks r') ops parts) :
    List.Forall₂ (Kernel.MadeFor g) ops parts.flatten := by
  refine flatten_of_singletons (h.imp fun o ks => ?_)
  rintro ⟨n, handle, r, r', hn, hhandle, hks⟩
  obtain ⟨handle', hhandle', hmade⟩ := hmake n.op.kind
  obtain rfl := Option.some.inj (hhandle.symm.trans hhandle')
  exact hmade _ r ks r' hn hks

/-- The kernels of a generation belong to the operators of the traversal, in their order. -/
theorem Backend.generate_made {d : Descriptor α} (hmake : handlers.Make)
    (h : Gives (backend.generate handlers g config) s d s') :
    ∃ ops, g.topologicalOrder = .ok ops ∧ List.Forall₂ (Kernel.MadeFor g) ops d.kernels := by
  obtain ⟨target, ops, parts, s₁, -, hops, hall, hkernels, -⟩ := generate_gives h
  exact ⟨ops, hops, hkernels ▸ hmake.made hall⟩

/-- Generation fails only as its preparation and its handlers do. -/
theorem Backend.generate_error {P : GenerateError → Prop} (hmake : handlers.Make)
    (hg : g.Wellformed) (hops : g.topologicalOrder = .ok ops)
    (hprepare : RaisesOnly (backend.prepare g config) s P)
    (htarget : ∀ target s₁, Gives (backend.prepare g config) s target s₁ →
      (∃ data, backend.constants target g = .ok data) ∧
      ∀ o ∈ ops, ∀ n handle s, g.node? o = some n → handlers n.op.kind = some handle →
        RaisesOnly (handle ⟨target, g, config, o, n⟩) s P) :
    RaisesOnly (backend.generate handlers g config) s P := by
  refine .bind hprepare fun target s₁ hgives => .step (generates_graph_iff.2 ⟨hops, rfl⟩) ?_
  obtain ⟨⟨data, hdata⟩, hhandle⟩ := htarget target s₁ hgives
  refine .bind (.mapM fun o ho s => ?_) fun work s₂ hwork =>
    .bind (.mapM fun e he s => ?_) fun parts s₃ hparts => ?_
  · obtain ⟨n, -, hn, -⟩ := Graph.output_of_mem_topologicalOrder hg hops ho
    obtain ⟨handle, hhandle, -⟩ := hmake n.op.kind
    refine .step (generates_graph_iff.2 ⟨Graph.operator_ok_iff.2 hn, rfl⟩) ?_
    rw [hhandle]
    exact .pure
  · obtain ⟨o, ho, n, handle, hn, hhandle', rfl⟩ :=
      exists_of_forall₂_right (assignHandlers_gives hwork) he
    exact hhandle o ho n handle s hn hhandle'
  · have hall : List.Forall₂ (fun o ks => ∃ n handle r r', g.node? o = some n ∧
        handlers n.op.kind = some handle ∧ Gives (handle ⟨target, g, config, o, n⟩) r ks r')
        ops parts := by
      refine (forall₂_comp (assignHandlers_gives hwork) (forall₂_of_gives_mapM hparts)).imp ?_
      rintro o ks ⟨_, ⟨n, handle, hn, hhandle', rfl⟩, r, r', hks⟩
      exact ⟨n, handle, r, r', hn, hhandle', hks⟩
    have hnone : firstRepeated? [] (parts.flatten.map (·.name)) = none :=
      firstRepeated?_eq_none
        (nodup_names (hmake.made hall) (Graph.ordered_topologicalOrder hops).nodup) (by simp)
    simp only [hnone]
    exact .step (generates_graph_iff.2 ⟨hdata, rfl⟩) .pure

end

namespace Graph

section

variable {α : Type} [Scalar α] [ScalarText α] [PlainText α] {g : Graph α} {kind : BackendKind}
  {config : Config} {s₀ s s' : Supply}

/-- Generation fails with the errors that the backend may report. -/
theorem raisesOnly_generate (hb : Built s₀ g) (hv : g.validate = .ok ())
    (hw : g.FitsWords kind config s) :
    RaisesOnly (g.generate kind config) s (GenerateError.Reported kind) := by
  obtain ⟨vars, hvars, hlive⟩ := validate_ok hv
  obtain ⟨ops, hops⟩ := topologicalOrder_of_reachable hvars
  have hg := hb.reached.wellformed
  have htyped : g.Typed := let ⟨_, h⟩ := hb; h.typed
  have allocates : ∀ P : GenerateError → Prop,
      RaisesOnly (liftM (MemoryLayout.allocate g) : GenerateM MemoryLayout) s P := fun P e h => by
    obtain ⟨f, hf, -⟩ := raises_graphM_iff.1 h
    exact (MemoryLayout.raisesOnly_allocate (P := fun _ => False) hg hvars hlive f hf).elim
  cases kind with
  | webAssembly =>
    refine Backend.generate_error CLike.handlers_make hg hops (allocates _) fun layout s₁ h => ?_
    have hlayout := generates_graphM_iff.1 h
    have hplaced := (MemoryLayout.placed_of_allocate hlayout).2 vars hvars
    refine ⟨MemoryLayout.constants_ok hlayout, fun o ho n handle s hn hhandle => ?_⟩
    obtain rfl := Option.some.inj hhandle
    obtain ⟨y, xs, hc⟩ := KernelContext.exists_ready (c := ⟨layout, g, config, o, n⟩) hg htyped
      hops hvars hplaced ho hn
    exact CLike.handler_error hc
  | webGpu =>
    obtain ⟨hwords, hsize, haddress⟩ := hw
    refine Backend.generate_error Wgsl.handlers_make hg hops
      (.bind (allocates _) fun _ _ _ => .pure) fun target s₁ h => ?_
    simp only [Wgsl.backend, gives_bind_iff, generates_graphM_iff, gives_pure_iff] at h
    obtain ⟨layout, _, hlayout, rfl, rfl⟩ := h
    have hplaced := (MemoryLayout.placed_of_allocate hlayout).2 vars hvars
    refine ⟨MemoryLayout.constants_ok hlayout, fun o ho n handle s hn hhandle => ?_⟩
    obtain rfl := Option.some.inj hhandle
    obtain ⟨y, xs, hc⟩ := KernelContext.exists_ready (c := ⟨_, g, config, o, n⟩) hg htyped
      hops hvars hplaced ho hn
    exact Wgsl.handler_error hwords (Nat.max_lt.2 ⟨hsize, by decide⟩) (haddress _ _ hlayout) hn hc
  | webGl =>
    refine Backend.generate_error Glsl.handlers_make hg hops
      (.bind (fun e h => ?_) fun u s₁ h => ?_) fun target s₁ h => ?_
    · obtain ⟨f, hf, rfl⟩ := raises_pass_iff.1 h
      rcases checkTextures_error hvars hlive hw hf with ⟨d, rfl⟩ | ⟨v, fault, rfl⟩ <;> rfl
    · obtain ⟨hcheck, rfl⟩ := generates_pass_iff.1 h
      obtain ⟨layout, hlayout⟩ : ∃ layout, TextureLayout.allocate g config = .ok layout :=
        TextureLayout.allocate_ok hvars (checkTextures_ok hcheck hvars)
      exact .step (generates_graph_iff.2 ⟨hlayout, rfl⟩) .pure
    · simp only [Glsl.backend, gives_bind_iff, generates_pass_iff, generates_graph_iff,
        gives_pure_iff] at h
      obtain ⟨⟨⟩, _, ⟨-, rfl⟩, layout, _, ⟨hlayout, rfl⟩, rfl, rfl⟩ := h
      have hplaced := (TextureLayout.placed_of_allocate hlayout).2 vars hvars
      refine ⟨TextureLayout.constants_ok hlayout, fun o ho n handle s hn hhandle => ?_⟩
      obtain rfl := Option.some.inj hhandle
      obtain ⟨y, xs, hc⟩ := KernelContext.exists_ready (c := ⟨_, g, config, o, n⟩) hg
        htyped hops hvars hplaced ho hn
      exact Glsl.handler_error hc

theorem made_of_generate {d : Descriptor α} (h : Gives (g.generate kind config) s d s') :
    ∃ ops, g.topologicalOrder = .ok ops ∧ List.Forall₂ (Kernel.MadeFor g) ops d.kernels := by
  cases kind with
  | webAssembly => exact Backend.generate_made CLike.handlers_make h
  | webGpu => exact Backend.generate_made Wgsl.handlers_make h
  | webGl => exact Backend.generate_made Glsl.handlers_make h

/-- Generation from a valid graph reports an error of the graph or the configuration, or it gives
one kernel for each operator that is needed, in topological order, under distinct names and with no
delimiter left. The templates of all kernels can be read, and mean what they were built from. -/
theorem outcome_of_generate (hb : Built s₀ g) (hv : g.validate = .ok ())
    (hw : g.FitsWords kind config s) :
    (∀ e, Raises (g.generate kind config) s e → e.Reported kind) ∧
    (∀ d s', Gives (g.generate kind config) s d s' → ∃ ops, g.topologicalOrder = .ok ops ∧
      ops.Nodup ∧ (∀ o, o ∈ ops ↔ g.Needed o) ∧
      (∀ pre o post, ops = pre ++ o :: post → ∀ c, g.DependsOn g.inputs o c → c ∈ pre) ∧
      List.Forall₂ (Kernel.MadeFor g) ops d.kernels ∧ (d.kernels.map (·.name)).Nodup) ∧
    ∀ op : Operator α, Template.parse (kind.template op).source = .ok (kind.template op).joined ∧
      ∀ injector : Injector α,
        injector.inject (kind.template op).joined = injector.inject (kind.template op) := by
  refine ⟨raisesOnly_generate hb hv hw, fun d s' h => ?_, fun op => ?_⟩
  · obtain ⟨ops, hops, hmade⟩ := made_of_generate h
    have hordered := ordered_topologicalOrder hops
    exact ⟨ops, hops, hordered.nodup, fun o => mem_topologicalOrder_iff hops, hordered.behind,
      hmade, nodup_names hmade hordered.nodup⟩
  · exact ⟨Template.parse_source (BackendKind.wellFormed_template kind op),
      fun injector => injector.inject_joined _⟩

end

theorem type_of_repeated {inputs : List VarId} {marks : List Mark} {v : VarId} {t : Tensor ℚ}
    (h : (repeated inputs marks).tensor v = .ok t) : t.type = channelType := by
  match v, h with
  | ⟨0⟩, h => exact congrArg Tensor.type (Except.ok.inj h).symm
  | ⟨1⟩, h => exact congrArg Tensor.type (Except.ok.inj h).symm
  | ⟨_ + 2⟩, h => cases h

theorem inWords_repeated {inputs : List VarId} {marks : List Mark} :
    (repeated inputs marks).InWords where
  ranks v t h := by
    rw [type_of_repeated h]
    decide
  shapes v t h := by
    rw [type_of_repeated h]
    exact List.forall_mem_singleton.2 (isWord_known (by decide))
  slices o n start stop step h hop := by
    match o, h with
    | ⟨0⟩, h =>
      rw [← Except.ok.inj h] at hop
      cases hop
    | ⟨_ + 1⟩, h => cases h

/-- The repetition of one element meets all conditions, and gets one kernel. -/
theorem repeated_outcome : (repeated [⟨0⟩] [.input]).FitsWords .webGpu {} {} ∧
    (∀ e, Raises ((repeated [⟨0⟩] [.input]).generate .webGpu {}) {} e → e.Reported .webGpu) ∧
    ∀ d s', Gives ((repeated [⟨0⟩] [.input]).generate .webGpu {}) {} d s' →
      ∃ k, d.kernels = [k] ∧ k.MadeFor (repeated [⟨0⟩] [.input]) ⟨0⟩ := by
  have hw : (repeated [⟨0⟩] [.input]).FitsWords .webGpu {} {} := by
    refine ⟨inWords_repeated, by decide, fun layout s' h v a ha => ?_⟩
    obtain ⟨rfl, -⟩ : repeatedLayout ⟨0⟩ ⟨1⟩ = layout ∧ {} = s' := by
      simpa using allocates_repeated.symm.trans h
    simp only [repeatedLayout, MemoryLayout.get?, List.lookup_cons, List.lookup_nil] at ha
    split at ha
    · cases ha
      decide
    · split at ha
      · cases ha
        decide
      · cases ha
  have hv : (repeated [⟨0⟩] [.input]).validate = .ok () := rfl
  obtain ⟨herror, hok, -⟩ := outcome_of_generate built_repeated.1 hv hw
  refine ⟨hw, herror, fun d s' h => ?_⟩
  obtain ⟨ops, hops, -, -, -, hmade, -⟩ := hok d s' h
  obtain rfl : [⟨0⟩] = ops := Except.ok.inj hops
  obtain ⟨k, rest, hk, hrest, hkernels⟩ := List.forall₂_cons_left_iff.1 hmade
  rw [List.forall₂_nil_left_iff.1 hrest] at hkernels
  exact ⟨k, hkernels, hk⟩

/-- A texture within the limit whose scalars no word counts: generation faults on the product. -/
theorem repeated_uncountable : Built {} (repeated [⟨0⟩] [.input]) ∧
    (repeated [⟨0⟩] [.input]).validate = .ok () ∧
    let config : Config := {
      maxTextureSize := 0x10000000000
      textureShapes := [(⟨0⟩, ⟨0x10000000000, 0x10000000000⟩)] }
    Raises ((repeated [⟨0⟩] [.input]).generate .webGl config) {} (.pass (.graph .indexFault)) ∧
      ¬(GenerateError.pass (.graph .indexFault)).Reported .webGl :=
  ⟨built_repeated.1, rfl, rfl, id⟩

end Graph

end TensorCompiler
