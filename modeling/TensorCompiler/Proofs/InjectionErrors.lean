import TensorCompiler.Proofs.Emission
/-!
# How injection fails

A template that requests exactly what is bound, and in forms that the dialect can write, is written
out unless a number does not fit 32 bits or a scalar has no literal.

* `Binding.Fails`: the errors that come from the value of a binding.
* `Injector.Serves`: requests and bindings agree.
* `Injector.Serves.error`: then no other errors are possible.
* `CLike.serves`, `Wgsl.serves`, `Glsl.serves`: requests and bindings of all kernels agree.
-/

namespace TensorCompiler

/-! ## Values that cannot be written -/

/-- The integers that are written for a binding. A C-like kernel adds offsets to pointers itself. -/
def Binding.numbers {α : Type} (d : Dialect) : Binding α → List Nat
  | .int x => [x.stored]
  | .ints xs => xs.map Dim.stored
  | .buffer a =>
    match d with
    | .wgsl dynamicBase => [a.space.base dynamicBase + a.offset.stored]
    | _ => []
  | .float _ => []
  | .sampler _ => []

/-- The error is one of writing this value out. -/
inductive Binding.Fails {α : Type} (d : Dialect) (b : Binding α) : TemplateError → Prop
  | overflow {n : Nat} : n ∈ b.numbers d → Fails d b (.overflow n)
  | nonFinite {text : String} : Fails d b (.nonFinite text)

/-- The dialect can write the binding in the form that is requested. -/
def Binding.Serves {α : Type} (d : Dialect) : Request → Binding α → Prop
  | .loadBuffer _, .int x => d = .glsl → x.isKnown = true
  | .loadBuffer _, .ints _ => d ≠ .glsl
  | .loadBuffer _, .buffer _ => d ≠ .glsl
  | .loadBuffer _, .float _ => True
  | .loadBuffer _, .sampler _ => False
  | .uniform .., .buffer _ => False
  | .uniform .., _ => d = .glsl
  | .funcName, _ => True

section

variable {α : Type} {d : Dialect} {name : String} {t : MetaTable} {x : Dim} {e : TemplateError}

theorem fitInt32_error {n : Nat} (h : fitInt32 n = .error e) : e = .overflow n := by
  unfold fitInt32 at h
  split at h
  · cases h
  · exact (Except.error.inj h).symm

theorem push_error (h : t.push x = .error e) : e = .overflow x.stored := by
  unfold MetaTable.push at h
  simp only [] at h
  split at h
  · next n hn =>
    rcases bind_error_iff.1 h with h | ⟨m, -, h⟩
    · rw [stored_known hn]
      exact fitInt32_error h
    · cases h
  · cases h

theorem extend_error {xs : List Dim} (h : (t.extend xs).1 = .error e) :
    ∃ x ∈ xs, e = .overflow x.stored := by
  induction xs generalizing t with
  | nil => cases h
  | cons x xs ih =>
    unfold MetaTable.extend at h
    split at h
    · next e' hpush =>
      cases h
      exact ⟨x, List.mem_cons_self .., push_error hpush⟩
    · next index t' _ =>
      cases hrest : t'.extend xs with
      | mk result t'' =>
        rw [hrest] at h
        cases result with
        | ok offset => cases h
        | error e' =>
          cases h
          obtain ⟨y, hy, h⟩ := ih (congrArg Prod.fst hrest)
          exact ⟨y, List.mem_cons_of_mem _ hy, h⟩

theorem uniformInts_error {component : Nat} {xs : List Dim}
    (h : uniformInts name component xs = .error e) : ∃ x ∈ xs, e = .overflow x.stored := by
  induction xs generalizing component with
  | nil => cases h
  | cons x xs ih =>
    -- What is done with the other dimensions cannot fail.
    have hrest : ∀ {β : Type} {k : List Nat × List Patch → Except TemplateError β},
        (uniformInts name (component + 1) xs >>= k) = .error e → (∀ r, k r ≠ .error e) →
          ∃ y ∈ x :: xs, e = .overflow y.stored := by
      intro β k h hk
      rcases bind_error_iff.1 h with h | ⟨r, -, h⟩
      · obtain ⟨y, hy, h⟩ := ih h
        exact ⟨y, List.mem_cons_of_mem _ hy, h⟩
      · exact absurd h (hk r)
    unfold uniformInts at h
    simp only [] at h
    split at h
    · next m hm =>
      rcases bind_error_iff.1 h with h | ⟨n, -, h⟩
      · exact ⟨x, List.mem_cons_self .., (stored_known hm).symm ▸ fitInt32_error h⟩
      · exact hrest h fun r h => by cases h
    · exact hrest h fun r h => by cases h

theorem loadInt_error (hknown : d = .glsl → x.isKnown = true)
    (h : (d.loadInt name x t : Except TemplateError (Rendered α × MetaTable)) = .error e) :
    e = .overflow x.stored := by
  unfold Dialect.loadInt at h
  split at h
  · next n hn =>
    rcases bind_error_iff.1 h with h | ⟨m, -, h⟩
    · rw [stored_known hn]
      exact fitInt32_error h
    · cases h
  · next hx =>
    split at h
    · next hd =>
      have hk : x.known?.isSome = true := hknown hd
      rw [hx] at hk
      cases hk
    · rcases bind_error_iff.1 h with h | ⟨m, -, h⟩
      · exact push_error h
      · cases h

theorem loadInts_error {xs : List Dim} (hd : d ≠ .glsl)
    (h : (d.loadInts name xs t : Except TemplateError (Rendered α × MetaTable)) = .error e) :
    ∃ x ∈ xs, e = .overflow x.stored := by
  unfold Dialect.loadInts at h
  rw [if_neg hd] at h
  rcases bind_error_iff.1 h with h | ⟨offset, -, h⟩
  · exact extend_error h
  · cases h

/-- A symbolic dimension goes to the table as it is. -/
theorem push_ne_error (hx : x.known? = none) : t.push x ≠ .error e := by
  intro h
  unfold MetaTable.push at h
  rw [hx] at h
  cases h

/-- Only an address over all regions can be too large. -/
theorem loadRegion_error {a : Allocation} (hd : d ≠ .glsl)
    (h : (d.loadRegion name a t : Except TemplateError (Rendered α × MetaTable)) = .error e) :
    ∃ dynamicBase, d = .wgsl dynamicBase ∧
      e = .overflow (a.space.base dynamicBase + a.offset.stored) := by
  unfold Dialect.loadRegion at h
  split at h
  · cases h
  · next hoffset =>
    rcases bind_error_iff.1 h with h | ⟨m, -, h⟩
    · exact absurd h (push_ne_error hoffset)
    · cases h
  · next dynamicBase n hn =>
    rcases bind_error_iff.1 h with h | ⟨m, -, h⟩
    · exact ⟨dynamicBase, rfl, stored_known hn ▸ fitInt32_error h⟩
    · cases h
  · next dynamicBase hoffset =>
    rcases bind_error_iff.1 h with h | ⟨base, -, h⟩
    · refine ⟨dynamicBase, rfl, ?_⟩
      rw [stored_symbolic hoffset]
      exact fitInt32_error h
    · rcases bind_error_iff.1 h with h | ⟨m, -, h⟩
      · exact absurd h (push_ne_error hoffset)
      · cases h
  · exact absurd rfl hd

variable [ScalarText α] {b : Binding α}

theorem floatText_error {x : α} (h : d.floatText x = .error e) : ∃ text, e = .nonFinite text := by
  unfold Dialect.floatText at h
  split at h
  · cases h
  · cases h
    exact ⟨_, rfl⟩

theorem load_error (hs : b.Serves d (.loadBuffer name)) (h : d.load name b t = .error e) :
    b.Fails d e := by
  unfold Dialect.load at h
  cases b with
  | int x =>
    obtain rfl := loadInt_error hs h
    exact .overflow (List.mem_singleton_self _)
  | ints xs =>
    obtain ⟨x, hx, rfl⟩ := loadInts_error hs h
    exact .overflow (List.mem_map_of_mem hx)
  | buffer a =>
    obtain ⟨dynamicBase, rfl, rfl⟩ := loadRegion_error hs h
    exact .overflow (List.mem_singleton_self _)
  | float x =>
    rcases bind_error_iff.1 h with h | ⟨text, -, h⟩
    · obtain ⟨text, rfl⟩ := floatText_error h
      exact .nonFinite
    · cases h
  | sampler v => exact hs.elim

theorem uniform_error {type : String} {unit : Nat} (hs : b.Serves d (.uniform type name))
    (h : d.uniform type name b unit = .error e) : b.Fails d e := by
  unfold Dialect.uniform at h
  cases b with
  | int x =>
    have hd : d = .glsl := hs
    simp only [hd, ne_eq, not_true_eq_false, if_false] at h
    rcases bind_error_iff.1 h with h | ⟨m, -, h⟩
    · obtain ⟨y, hy, rfl⟩ := uniformInts_error h
      exact .overflow (by simpa [Binding.numbers] using congrArg Dim.stored (List.mem_singleton.1 hy))
    · cases h
  | ints xs =>
    have hd : d = .glsl := hs
    simp only [hd, ne_eq, not_true_eq_false, if_false] at h
    rcases bind_error_iff.1 h with h | ⟨m, -, h⟩
    · obtain ⟨y, hy, rfl⟩ := uniformInts_error h
      exact .overflow (List.mem_map_of_mem hy)
    · cases h
  | buffer a => exact hs.elim
  | float x =>
    have hd : d = .glsl := hs
    simp only [hd, ne_eq, not_true_eq_false, if_false] at h
    rcases bind_error_iff.1 h with h | ⟨m, -, h⟩
    · obtain ⟨text, rfl⟩ := floatText_error h
      exact .nonFinite
    · cases h
  | sampler v =>
    have hd : d = .glsl := hs
    simp only [hd, ne_eq, not_true_eq_false, if_false] at h
    cases h

end

/-! ## Requests and bindings -/

/-- The template requests exactly what is bound, in forms that the dialect can write. -/
structure Injector.Serves {α : Type} (injector : Injector α) (t : Template) : Prop where
  bound : ∀ name ∈ t.names, ∃ b, injector.bindings.get? name = some b
  requested : ∀ e ∈ injector.bindings.entries, e.1 ∈ t.names
  forms : ∀ r ∈ t.requests, ∀ name b, r.binding? = some name →
    injector.bindings.get? name = some b → b.Serves injector.dialect r

section

variable {α : Type} [ScalarText α] {injector : Injector α} {t : Template} {e : TemplateError}

theorem Injection.step_error {s : Injection α} {segment : Segment}
    (hbound : ∀ r, segment = .request r → ∀ name, r.binding? = some name →
      ∃ b, injector.bindings.get? name = some b ∧ b.Serves injector.dialect r)
    (h : s.step injector segment = .error e) :
    ∃ name b, injector.bindings.get? name = some b ∧ b.Fails injector.dialect e := by
  cases segment with
  | text text => cases h
  | request r =>
    simp only [step] at h
    split at h
    · cases h
    · next name hname =>
      obtain ⟨b, hb, hserves⟩ := hbound r rfl name hname
      rw [hb] at h
      split at h
      · cases h
      · next b' _ hb' =>
        obtain rfl := Option.some.inj hb'
        refine ⟨name, b, hb, ?_⟩
        cases r with
        | loadBuffer x =>
          obtain rfl : x = name := Option.some.inj hname
          rcases bind_error_iff.1 h with h | ⟨⟨r, table⟩, -, h⟩
          · exact load_error hserves h
          · cases h
        | uniform type x =>
          obtain rfl : x = name := Option.some.inj hname
          rcases bind_error_iff.1 h with h | ⟨⟨r, patches⟩, -, h⟩
          · exact uniform_error hserves h
          · cases h
        | funcName => cases hname
      · next hb' => cases hb'

/-- If requests and bindings agree, injection fails only at a value. -/
theorem Injector.Serves.error (hs : injector.Serves t) (h : injector.inject t = .error e) :
    ∃ name b, injector.bindings.get? name = some b ∧ b.Fails injector.dialect e := by
  unfold inject at h
  rw [nameFault?_eq_none hs.bound hs.requested] at h
  rcases bind_error_iff.1 h with h | ⟨s, -, h⟩
  · obtain ⟨s, segment, hsegment, h⟩ := foldlM_error h
    refine Injection.step_error (fun r hr name hname => ?_) h
    have hmem : r ∈ t.requests := List.mem_filterMap.2 ⟨segment, hsegment, by rw [hr]⟩
    obtain ⟨b, hb⟩ := hs.bound name (List.mem_filterMap.2 ⟨r, hmem, hname⟩)
    exact ⟨b, hb, hs.forms r hmem name b hname hb⟩
  · cases h

end

theorem Injector.serves_ofList {α : Type} {d : Dialect} {name : String} {t : Template}
    {entries : List (String × Binding α)} (hn : (entries.map (·.1)).Nodup)
    (hnames : ∀ x, x ∈ t.names ↔ x ∈ entries.map (·.1))
    (hforms : ∀ r ∈ t.requests, ∀ e ∈ entries, r.binding? = some e.1 → e.2.Serves d r) :
    (Injector.mk d name (.ofList entries)).Serves t where
  bound x hx := by
    obtain ⟨e, he, rfl⟩ := List.mem_map.1 ((hnames x).1 hx)
    exact ⟨e.2, Bindings.get?_ofList hn he⟩
  requested e he := (hnames e.1).2 (List.mem_map_of_mem (Bindings.mem_entries_ofList he))
  forms r hr x b hx hb := hforms r hr (x, b) (Bindings.mem_of_get?_ofList hb) hx

/-! ## Requests of the templates -/

section

variable {α : Type}

theorem CLike.requests_pointwiseTemplate (f : Pointwise α) : (pointwiseTemplate f).requests =
    .funcName :: (["y"] ++ f.kind.inputNames.flatMap (fun x => [x, strideName x]) ++
      ["y_stride", "shape", "size", "rank"] ++ f.parameterBindings.map (·.1)).map .loadBuffer := by
  cases f <;> rfl

theorem Wgsl.requests_pointwiseTemplate (f : Pointwise α) : (pointwiseTemplate f).requests =
    .loadBuffer "workgroup_size" :: .funcName :: ("workgroup_size" ::
      ("y" :: f.kind.inputNames).flatMap (fun x => [x, strideName x]) ++
      ["shape", "size", "rank"] ++ f.parameterBindings.map (·.1)).map .loadBuffer := by
  cases f <;> rfl

theorem Wgsl.requests_movementTemplate (op : Operator α) : (movementTemplate op).requests =
    .loadBuffer "workgroup_size" :: .funcName ::
      ("workgroup_size" :: ["y", "x", "y_shape", "x_stride"] ++ op.movementNames ++
        ["size", "rank"]).map .loadBuffer := by
  cases op <;> rfl

theorem Glsl.requests_pointwiseTemplate (f : Pointwise α) : (pointwiseTemplate f).requests =
    .funcName :: f.kind.inputNames.flatMap (fun x => [.uniform "sampler2D" x,
      .uniform "ivec2" (textureName x), .uniform "ivec4" (strideName x)]) ++
      [.uniform "ivec2" "y_texture", .uniform "ivec4" "shape", .uniform "int" "y_size"] ++
      ("channels" :: f.parameterBindings.map (·.1)).map .loadBuffer := by
  cases f <;> rfl

theorem Glsl.requests_movementTemplate (op : Operator α) : (movementTemplate op).requests =
    .funcName :: [.uniform "sampler2D" "x", .uniform "ivec2" (textureName "x"),
      .uniform "ivec4" "x_stride"] ++ op.movementNames.map (.uniform "ivec4") ++
      [.uniform "ivec2" "y_texture", .uniform "ivec4" "y_shape", .uniform "int" "y_size"] ++
      ["channels"].map .loadBuffer := by
  cases op <;> rfl

theorem Template.names_of_loads {t : Template} {names : List String}
    (h : t.requests = .funcName :: names.map .loadBuffer) : t.names = names := by
  rw [Template.names, h, List.filterMap_cons_none rfl, List.filterMap_map]
  exact List.filterMap_some

theorem Template.names_of_header {t : Template} {first : String} {names : List String}
    (h : t.requests = .loadBuffer first :: .funcName :: names.map .loadBuffer) :
    t.names = first :: names := by
  rw [Template.names, h]
  show first :: (names.map Request.loadBuffer).filterMap Request.binding? = _
  rw [List.filterMap_map]
  exact congrArg (first :: ·) List.filterMap_some

/-- The names that a kernel over linear memory is bound to. -/
def Linear.names : Operator α → List String
  | .pointwise f => ["y", "y_stride", "shape", "size", "rank"] ++
      f.kind.inputNames.flatMap (fun x => [x, strideName x]) ++ f.parameterBindings.map (·.1)
  | op => ["y", "x", "y_shape", "x_stride", "size", "rank"] ++ op.movementNames

theorem CLike.mem_names_template (op : Operator α) (name : String) :
    name ∈ (BackendKind.webAssembly.template op).names ↔ name ∈ Linear.names op := by
  have movement : name ∈ (movementTemplate op).names ↔
      name ∈ ["y", "x", "y_shape", "x_stride", "size", "rank"] ++ op.movementNames := by
    rw [Template.names_of_loads (requests_movementTemplate op)]
    simp only [List.mem_append, List.mem_cons, List.not_mem_nil, false_or, or_assoc, or_left_comm,
      or_comm]
  cases op with
  | pointwise f =>
    show name ∈ (pointwiseTemplate f).names ↔ _
    rw [Template.names_of_loads (requests_pointwiseTemplate f), Linear.names]
    simp only [List.mem_append, List.mem_cons, List.not_mem_nil, false_or, or_assoc, or_left_comm,
      or_comm]
  | _ => exact movement

theorem Wgsl.mem_names_template (op : Operator α) (name : String) :
    name ∈ (BackendKind.webGpu.template op).names ↔
      name ∈ "workgroup_size" :: Linear.names op := by
  have movement : name ∈ (movementTemplate op).names ↔ name ∈ "workgroup_size" ::
      (["y", "x", "y_shape", "x_stride", "size", "rank"] ++ op.movementNames) := by
    rw [Template.names_of_header (requests_movementTemplate op)]
    simp only [List.mem_append, List.mem_cons, List.not_mem_nil, false_or, or_assoc, or_left_comm,
      or_comm, or_self_left]
  cases op with
  | pointwise f =>
    show name ∈ (pointwiseTemplate f).names ↔ _
    have hy : strideName "y" = "y_stride" := rfl
    rw [Template.names_of_header (requests_pointwiseTemplate f), Linear.names, List.flatMap_cons, hy]
    simp only [List.mem_append, List.mem_cons, List.not_mem_nil, false_or, or_assoc, or_left_comm,
      or_comm, or_self_left]
  | _ => exact movement

/-- Kernels over linear memory request no uniforms. -/
theorem Linear.requests_template {kind : BackendKind} (hkind : kind ≠ .webGl) (op : Operator α) :
    ∀ r ∈ (kind.template op).requests, r = .funcName ∨ ∃ name, r = .loadBuffer name := by
  have load : ∀ (names : List String), ∀ r ∈ names.map Request.loadBuffer,
      r = .funcName ∨ ∃ name, r = .loadBuffer name := by
    rintro names r hr
    obtain ⟨name, -, rfl⟩ := List.mem_map.1 hr
    exact .inr ⟨name, rfl⟩
  have c : ∀ {t : Template} {names : List String},
      t.requests = .funcName :: names.map .loadBuffer →
      ∀ r ∈ t.requests, r = .funcName ∨ ∃ name, r = .loadBuffer name := fun h =>
    h ▸ List.forall_mem_cons.2 ⟨.inl rfl, load _⟩
  have wgsl : ∀ {t : Template} {names : List String},
      t.requests = .loadBuffer "workgroup_size" :: .funcName :: names.map .loadBuffer →
      ∀ r ∈ t.requests, r = .funcName ∨ ∃ name, r = .loadBuffer name := fun h =>
    h ▸ List.forall_mem_cons.2 ⟨.inr ⟨_, rfl⟩, List.forall_mem_cons.2 ⟨.inl rfl, load _⟩⟩
  cases kind with
  | webAssembly =>
    cases op with
    | pointwise f => exact c (CLike.requests_pointwiseTemplate f)
    | _ => exact c (CLike.requests_movementTemplate _)
  | webGpu =>
    cases op with
    | pointwise f => exact wgsl (Wgsl.requests_pointwiseTemplate f)
    | _ => exact wgsl (Wgsl.requests_movementTemplate _)
  | webGl => exact absurd rfl hkind

end

/-! ## Bindings of the kernels -/

theorem map_fst_zip_eq {β γ : Type} {xs : List β} {ys : List γ} (h : xs.length ≤ ys.length) :
    (xs.zip ys).map (·.1) = xs := by
  rw [← List.unzip_fst, List.unzip_zip_left h]

/-- There are as many inputs as the operator takes. -/
def KernelContext.ArityMet {α τ : Type} (c : KernelContext α τ) : Prop :=
  ∀ inputs, c.inputs = .ok inputs → inputs.length = c.node.op.kind.arity

namespace Linear

variable {α τ : Type} {c : KernelContext α τ} {layout : MemoryLayout}
  {entries : List (String × Binding α)} {s s' : Supply}

theorem map_fst_bindings (h : Gives (Linear.bindings layout c) s entries s') (hc : c.ArityMet) :
    entries.map (·.1) = names c.node.op := by
  have movement : Gives (movementBindings layout c) s entries s' → entries.map (·.1) =
      ["y", "x", "y_shape", "x_stride", "size", "rank"] ++ c.node.op.movementNames := by
    intro h
    obtain ⟨y, x, place, input, strides, size, s₁, -, -, -, -, -, -, rfl⟩ := movementBindings_gives h
    rw [List.map_append, List.map_map]
    exact congrArg _ (Operator.map_fst_movementTables _ _)
  unfold Linear.bindings at h
  cases hop : c.node.op with
  | pointwise f =>
    rw [hop] at h
    obtain ⟨y, inputs, order, place, size, s₁, operands, -, hinputs, horder, -, -, hall, rfl⟩ :=
      pointwiseBindings_gives h
    have hnames := names_flatten (fun x => [x, strideName x])
      (hall.imp fun e es ⟨_, _, h⟩ => by rw [h]; rfl)
    have harity : inputs.length = f.kind.inputNames.length := by
      rw [hc inputs hinputs, hop]
      rfl
    have hstrides := length_strides_of_unify horder
    rw [List.map_append, List.map_append, hnames, map_fst_zip_eq]
    · rfl
    · simp [hstrides, harity]
  | _ =>
    rw [hop] at h
    rw [movement h, hop]
    rfl

/-- No buffer of a linear kernel is a texture. -/
theorem not_sampler_of_bindings (h : Gives (Linear.bindings layout c) s entries s') :
    ∀ e ∈ entries, ∀ v, e.2 ≠ .sampler v := by
  unfold Linear.bindings at h
  split at h
  · obtain ⟨y, inputs, order, place, size, s₁, operands, -, -, -, -, -, hall, rfl⟩ :=
      pointwiseBindings_gives h
    have hoperands : ∀ e ∈ operands.flatten, ∀ v, e.2 ≠ .sampler v := by
      intro e he v
      obtain ⟨es, hes, he⟩ := List.mem_flatten.1 he
      obtain ⟨operand, -, place, -, rfl⟩ := exists_of_forall₂_right hall hes
      rcases List.mem_pair.1 he with rfl | rfl <;> simp
    have hparameters : ∀ f : Pointwise α, ∀ e ∈ f.parameterBindings, ∀ v, e.2 ≠ .sampler v := by
      intro f
      cases f <;> simp [Pointwise.parameterBindings]
    simp only [List.forall_mem_append]
    exact ⟨⟨by simp, hoperands⟩, hparameters _⟩
  · obtain ⟨y, x, place, input, strides, size, s₁, -, -, -, -, -, -, rfl⟩ := movementBindings_gives h
    simp only [List.forall_mem_append, List.forall_mem_map]
    exact ⟨by simp, fun _ _ _ => by simp⟩

/-- A load request is served by whatever a linear kernel is bound to. -/
theorem forms_of_bindings {kind : BackendKind} (hkind : kind ≠ .webGl) {d : Dialect} (hd : d ≠ .glsl)
    (h : ∀ e ∈ entries, ∀ v, e.2 ≠ .sampler v) : ∀ r ∈ (kind.template c.node.op).requests,
      ∀ e ∈ entries, r.binding? = some e.1 → e.2.Serves d r := by
  intro r hr e he hname
  rcases requests_template hkind c.node.op r hr with rfl | ⟨name, rfl⟩
  · cases hname
  · cases hb : e.2 with
    | int x => exact fun h => absurd h hd
    | ints xs => exact hd
    | buffer a => exact hd
    | float x => trivial
    | sampler v => exact absurd hb (h e he v)

end Linear

section

variable {α : Type} {entries : List (String × Binding α)} {s s' : Supply}

theorem CLike.serves {c : KernelContext α MemoryLayout} (hc : c.ArityMet)
    (h : Gives (Linear.bindings c.target c) s entries s') :
    (Injector.mk .c c.name (.ofList entries)).Serves (BackendKind.webAssembly.template c.node.op) := by
  refine Injector.serves_ofList (List.nodup_cons.1 (Linear.nodup_bindings h)).2 (fun name => ?_)
    (Linear.forms_of_bindings (by decide) (by decide) (Linear.not_sampler_of_bindings h))
  rw [Linear.map_fst_bindings h hc]
  exact mem_names_template c.node.op name

theorem Wgsl.serves {c : KernelContext α Target} (hc : c.ArityMet)
    (h : Gives (Linear.bindings c.target.layout c) s entries s') (base size : Nat) :
    (Injector.mk (.wgsl base) c.name
      (.ofList (("workgroup_size", .int (.known size)) :: entries))).Serves
        (BackendKind.webGpu.template c.node.op) := by
  refine Injector.serves_ofList (Linear.nodup_bindings h) (fun name => ?_)
    (Linear.forms_of_bindings (by decide) (by simp)
      (List.forall_mem_cons.2 ⟨by simp, Linear.not_sampler_of_bindings h⟩))
  rw [List.map_cons, Linear.map_fst_bindings h hc]
  exact mem_names_template c.node.op name

end

namespace Glsl

variable {α : Type} {c : KernelContext α Target} {entries : List (String × Binding α)}
  {s s' : Supply}

/-- The names that a fragment kernel is bound to. -/
def names : Operator α → List String
  | .pointwise f => ["channels", "y_texture", "y_size", "shape"] ++
      f.kind.inputNames.flatMap (fun x => [x, textureName x, strideName x]) ++
      f.parameterBindings.map (·.1)
  | op => ["channels", "y_texture", "y_size", "y_shape", "x_stride", "x", textureName "x"] ++
      op.movementNames

/-- The names of what is written into the source. -/
def literalNames : List String := ["channels", "scale", "bias"]

theorem names_pointwiseTemplate (f : Pointwise α) : (pointwiseTemplate f).names =
    f.kind.inputNames.flatMap (fun x => [x, textureName x, strideName x]) ++
      ["y_texture", "shape", "y_size", "channels"] ++ f.parameterBindings.map (·.1) := by
  cases f <;> rfl

theorem names_movementTemplate (op : Operator α) : (movementTemplate op).names =
    ["x", textureName "x", "x_stride"] ++ op.movementNames ++
      ["y_texture", "y_shape", "y_size", "channels"] := by
  cases op <;> rfl

theorem mem_names_template (op : Operator α) (name : String) :
    name ∈ (BackendKind.webGl.template op).names ↔ name ∈ names op := by
  have movement : name ∈ (movementTemplate op).names ↔ name ∈
      ["channels", "y_texture", "y_size", "y_shape", "x_stride", "x", textureName "x"] ++
        op.movementNames := by
    rw [names_movementTemplate]
    simp only [List.mem_append, List.mem_cons, List.not_mem_nil, false_or, or_assoc, or_left_comm,
      or_comm]
  cases op with
  | pointwise f =>
    show name ∈ (pointwiseTemplate f).names ↔ _
    rw [names_pointwiseTemplate, names]
    simp only [List.mem_append, List.mem_cons, List.not_mem_nil, false_or, or_assoc, or_left_comm,
      or_comm]
  | _ => exact movement

/-- A fragment kernel requests uniforms, and loads what is written into the source. -/
theorem requests_template (op : Operator α) : ∀ r ∈ (BackendKind.webGl.template op).requests,
    r = .funcName ∨ (∃ type name, r = .uniform type name) ∨
      ∃ name ∈ literalNames, r = .loadBuffer name := by
  have movement : ∀ r ∈ (movementTemplate op).requests, r = .funcName ∨
      (∃ type name, r = .uniform type name) ∨ ∃ name ∈ literalNames, r = .loadBuffer name := by
    rw [requests_movementTemplate]
    cases op <;> simp [literalNames, Operator.movementNames]
  cases op with
  | pointwise f =>
    show ∀ r ∈ (pointwiseTemplate f).requests, _
    rw [requests_pointwiseTemplate]
    cases f <;> simp [literalNames, Pointwise.parameterBindings, Pointwise.kind, OpKind.inputNames]
  | _ => exact movement

/-- What is bound under the name of a literal can be written into the source. -/
def Bindable (e : String × Binding α) : Prop :=
  (∀ a, e.2 ≠ .buffer a) ∧
    (e.1 ∈ literalNames → (∃ n, e.2 = .int (.known n)) ∨ ∃ x, e.2 = .float x)

theorem bindable_of_bindings (h : Gives (Glsl.bindings c) s entries s') :
    ∀ e ∈ entries, Bindable e := by
  have output : ∀ (n : Nat) (t : TextureAllocation) (size : Dim),
      ∀ e ∈ outputEntries (α := α) n t size, Bindable e := by
    intro n t size
    simp [outputEntries, Bindable, extentBinding, literalNames]
  unfold Glsl.bindings at h
  split at h
  · next f _ =>
    obtain ⟨y, inputs, order, padded, t, size, s₁, operands, -, -, -, -, -, -, hall, rfl⟩ :=
      pointwiseBindings_gives h
    have hoperands : ∀ e ∈ operands.flatten, Bindable e := by
      intro e he
      obtain ⟨es, hes, he⟩ := List.mem_flatten.1 he
      obtain ⟨⟨name, x, strides⟩, hoperand, u, -, rfl⟩ := exists_of_forall₂_right hall hes
      have hname : name ∈ f.kind.inputNames := (List.of_mem_zip hoperand).1
      have hnames : ∀ x ∈ f.kind.inputNames, x ∉ literalNames ∧ textureName x ∉ literalNames ∧
          strideName x ∉ literalNames := by
        cases f <;> simp [literalNames, Pointwise.kind, OpKind.inputNames, textureName, strideName]
      obtain ⟨h₁, h₂, h₃⟩ := hnames name hname
      simp only [sampledEntries, List.cons_append, List.nil_append, List.mem_cons,
        List.not_mem_nil, or_false] at he
      rcases he with rfl | rfl | rfl
      · exact ⟨by simp, fun h => absurd h h₁⟩
      · exact ⟨by simp [extentBinding], fun h => absurd h h₂⟩
      · exact ⟨by simp, fun h => absurd h h₃⟩
    have hparameters : ∀ e ∈ f.parameterBindings, Bindable e := by
      cases f <;> simp [Pointwise.parameterBindings, Bindable]
    simp only [List.forall_mem_append]
    exact ⟨⟨⟨output _ _ _, by simp [Bindable, literalNames]⟩, hoperands⟩, hparameters⟩
  · obtain ⟨y, x, t, u, strides, size, s₁, -, -, -, -, -, -, -, -, -, rfl⟩ := movementBindings_gives h
    have htables : ∀ e ∈ c.node.op.movementTables x.type, e.1 ∉ literalNames := by
      cases c.node.op <;> simp [Operator.movementTables, literalNames]
    simp only [List.forall_mem_append, List.forall_mem_map]
    refine ⟨⟨⟨output _ _ _, ?_⟩, ?_⟩, fun e he => ⟨by simp, fun h => absurd h (htables e he)⟩⟩
    · simp [Bindable, literalNames]
    · simp [Bindable, sampledEntries, extentBinding, textureName, literalNames]

theorem map_fst_bindings (h : Gives (Glsl.bindings c) s entries s') (hc : c.ArityMet) (name : String) :
    name ∈ entries.map (·.1) ↔ name ∈ names c.node.op := by
  have movement : Gives (movementBindings c) s entries s' → (name ∈ entries.map (·.1) ↔ name ∈
      ["channels", "y_texture", "y_size", "y_shape", "x_stride", "x", textureName "x"] ++
        c.node.op.movementNames) := by
    intro h
    obtain ⟨y, x, t, u, strides, size, s₁, -, -, -, -, -, -, -, -, -, rfl⟩ :=
      movementBindings_gives h
    rw [List.map_append, List.map_map, ← Operator.map_fst_movementTables _ x.type]
    exact Iff.rfl
  unfold Glsl.bindings at h
  cases hop : c.node.op with
  | pointwise f =>
    rw [hop] at h
    obtain ⟨y, inputs, order, padded, t, size, s₁, operands, -, hinputs, horder, hpad, -, -, hall,
      rfl⟩ := pointwiseBindings_gives h
    have hnames := names_flatten (fun x => [x, textureName x, strideName x])
      (hall.imp fun e es ⟨_, _, h⟩ => by rw [h]; rfl)
    have harity : inputs.length = f.kind.inputNames.length := by
      rw [hc inputs hinputs, hop]
      rfl
    have hstrides := length_strides_of_unify horder
    obtain ⟨-, -, -, -, hpadded⟩ := pad_ok hpad
    rw [List.map_append, List.map_append, hnames, map_fst_zip_eq]
    · exact Iff.rfl
    · simp [hpadded, hstrides, harity]
  | _ =>
    rw [hop] at h
    rw [movement h, hop]
    exact Iff.rfl

theorem serves (hc : c.ArityMet) (h : Gives (Glsl.bindings c) s entries s') :
    (Injector.mk .glsl c.name (.ofList entries)).Serves (BackendKind.webGl.template c.node.op) := by
  refine Injector.serves_ofList (nodup_bindings h) (fun name => ?_) fun r hr e he hname => ?_
  · rw [map_fst_bindings h hc, mem_names_template]
  · obtain ⟨hbuffer, hliteral⟩ := bindable_of_bindings h e he
    rcases requests_template c.node.op r hr with rfl | ⟨type, name, rfl⟩ | ⟨name, hmem, rfl⟩
    · cases hname
    · cases hb : e.2 with
      | buffer a => exact absurd hb (hbuffer a)
      | _ => rfl
    · obtain rfl : name = e.1 := Option.some.inj hname
      rcases hliteral hmem with ⟨n, hn⟩ | ⟨x, hx⟩
      · rw [hn]
        exact fun _ => rfl
      · rw [hx]
        trivial

end Glsl

end TensorCompiler
