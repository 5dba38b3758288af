import TensorCompiler.Proofs.LinearKernel
import TensorCompiler.Proofs.Liveness
/-!
# Kernels stay inside their operands

Inference checks the ranges of a slice against known sizes only, and a kernel meets symbolic sizes
when the free symbols of the model have got their values. As long as every slice ends within the
size that its input gets, no index that a kernel reads or writes leaves the region of its operand.

* `Kernel.StaysInside`: the indices of a kernel are smaller than the sizes of its regions.
* `Linear.LoopFor.staysInside`: the loop of an operator stays inside.
* `staysInside_of_generate`: the theorem about generation.
* `Graph.cutOff_leaves`: a slice beyond the size that its input gets.
-/

namespace TensorCompiler

open Dim

/-! ## Positions of the loop -/

/-- A position of an operand that lies inside its region, if the size of that has a value. -/
def Allocation.Holds (val : Dim → Option Nat) (a : Allocation) (index : Nat) : Prop :=
  ∀ n, val a.size = some n → index < n

/-- At every position that a thread visits, the kernel reads and writes inside the regions it is
bound to. -/
def Kernel.StaysInside {α : Type} (env : Valuation) (k : Kernel α) : Prop :=
  ∃ size rank threads, k.int? "size" = some size ∧ k.int? "rank" = some rank ∧
    k.threads size = some threads ∧ ∀ positions ∈ threads, ∀ i ∈ positions,
      (∀ x ∈ k.kind.inputNames, ∃ a index, k.buffer? x = some a ∧
        k.readIndex? rank x i = some index ∧ a.Holds (Dim.resolve env) index) ∧
      ∃ a index, k.buffer? "y" = some a ∧ k.writeIndex? rank i = some index ∧
        a.Holds (Dim.resolve env) index

theorem lt_of_mem_visits {step size start i : Nat} (h : i ∈ Kernel.visits step size start) :
    i < size := by
  induction start using Kernel.visits.induct step size with
  | case1 start hlt ih =>
    rw [Kernel.visits, if_pos hlt] at h
    rcases List.mem_cons.1 h with rfl | h
    · exact hlt.2
    · exact ih h
  | case2 start hnot =>
    rw [Kernel.visits, if_neg hnot] at h
    cases h

section

variable {α : Type} {val : Dim → Option Nat} {layout : MemoryLayout} {k : Kernel α}

/-- The loop ends behind the last element. -/
theorem Kernel.lt_of_mem_threads {size : Nat} {threads : List (List Nat)}
    (h : k.threads size = some threads) : ∀ positions ∈ threads, ∀ i ∈ positions, i < size := by
  unfold Kernel.threads at h
  split at h
  · cases h
    simp
  · simp only [Option.bind_eq_bind, Option.bind_eq_some_iff, pure, Option.some.injEq] at h
    obtain ⟨grid, -, rfl⟩ := h
    refine List.forall_mem_map.2 fun start _ i hi => lt_of_mem_visits hi
  · cases h

/-! ## Regions -/

/-- The size of a region is that of its variable. -/
theorem MemoryLayout.Planned.size_eq {g : Graph α} {vars : List VarId} {steps : List MemoryStep}
    {start final : Placement} (hp : layout.Planned val g vars steps start final)
    (hval : Dim.Reads val) (hsound : g.Sound) {v : VarId} {a : Allocation} {t : Tensor α} {n : Nat}
    (ha : layout.get? v = some a) (ht : g.tensor v = .ok t) (hpos : t.type.PositiveAt val)
    (hn : val a.size = some n) : n = (t.type.sizesAt val).prod := by
  have hmem : (v, a) ∈ final.table := hp.table ▸ MemoryLayout.mem_of_get? ha
  obtain ⟨u, hu, hsize⟩ := hp.measured _ hmem
  obtain rfl := Except.ok.inj (ht.symm.trans hu)
  rcases hsize with ⟨data, hdata, hknown⟩ | ⟨r, r', hmade⟩
  · obtain ⟨p, hslot⟩ := Graph.tensor_ok_iff.1 ht
    obtain ⟨ns, hshape, hlen⟩ := (hsound v t p hslot).2 data hdata
    rw [show a.size = .known data.size from hknown, hval.known, hlen] at hn
    rw [← Option.some.inj hn, hpos.readAs.unique (hshape ▸ readAs_known hval.known)]
  · exact hval.prod_eq hpos.readAs hmade hn

/-- The loop of an operator stays inside, since the operator takes elements that are there. -/
theorem Linear.LoopFor.staysInside {env : Valuation} {op : Operator α} {y : Operand}
    {xs : List Operand} (h : Linear.LoopFor (Dim.resolve env) layout op y xs k)
    (hthreads : ∀ size, ∃ threads, k.threads size = some threads)
    (harity : xs.length = op.kind.arity)
    (hpos : ∀ t ∈ y.type :: xs.map (·.type), t.PositiveAt (Dim.resolve env))
    (hreads : ∀ x ∈ xs, op.ReadsFrom (Dim.resolve env) x.type y.type)
    (hsizes : ∀ x ∈ y :: xs, ∀ a n, layout.get? x.var = some a → a.size.resolve env = some n →
      n = (x.type.sizesAt (Dim.resolve env)).prod) : k.StaysInside env := by
  obtain ⟨threads, hthreads⟩ := hthreads (y.type.sizesAt (Dim.resolve env)).prod
  obtain ⟨hy, hxs⟩ := List.forall_mem_cons.1 hpos
  obtain ⟨hysize, hsizes⟩ := List.forall_mem_cons.1 hsizes
  refine ⟨_, _, threads, h.size, h.rank, hthreads, fun positions hpositions i hi => ⟨?_, ?_⟩⟩
  · intro name hname
    rw [h.kind] at hname
    obtain ⟨x, hx⟩ := exists_mem_zip harity.symm hname
    have hmem : x ∈ xs := (List.of_mem_zip hx).2
    obtain ⟨a, ha, hbuffer⟩ := h.operand name x hx
    refine ⟨a, _, hbuffer, h.reads name x hx i, fun n hn => ?_⟩
    rw [hsizes x hmem a n ha hn]
    exact Operator.sourceAt_lt (hreads x hmem) (hxs _ (List.mem_map_of_mem hmem)) hy i
  · have hlt := Kernel.lt_of_mem_threads hthreads positions hpositions i hi
    obtain ⟨a, ha, hbuffer⟩ := h.output
    refine ⟨a, i, hbuffer, h.writes i hlt, fun n hn => ?_⟩
    rw [hysize a n ha hn]
    exact hlt

end

/-! ## Instances of the kernels of a graph -/

section

variable {α : Type} [ScalarText α] {g : Graph α} {layout : MemoryLayout} {o : OpId} {k : Kernel α}
  {env : Valuation}

/-- A kernel whose patches resolve can be instantiated, and then spells out the loop of its
operator. -/
theorem Linear.FilledFor.instantiate (h : Linear.FilledFor layout g o k)
    (hresolve : ∀ p ∈ k.patches, ∃ n, p.dim.resolve env = some n) :
    ∃ (τ : Type) (c : KernelContext α τ) (entries : List (String × Binding α)) (s s' : Supply)
      (k' : Kernel α), c.graph = g ∧ c.id = o ∧ g.node? o = some c.node ∧
        Gives (Linear.bindings layout c) s entries s' ∧ k.instantiate? env = some k' ∧
        k'.kind = c.node.op.kind ∧ k'.launch = k.launch ∧ k'.ProvidesAt (Dim.resolve env) entries ∧
        ∀ size, ∃ threads, k'.threads size = some threads := by
  obtain ⟨⟨τ, c, entries, s, s', injector, template, injected, hg, ho, hn, hentries, hd, hbindings,
    hinject, htable, hbound, hpatches, hkind⟩, -⟩ := h
  have hnodup := Linear.nodup_bindings hentries
  rcases hbindings with ⟨hlaunch, hbindings⟩ | ⟨workgroups, width, hlaunch, hbindings⟩
  · obtain ⟨k', hk', hkind', hlaunch', hprovides⟩ := provides_of_instantiate hd hinject htable hbound
      hpatches (fun name b hb => by
        rw [hbindings, Bindings.get?_ofList (List.nodup_cons.1 hnodup).2 hb]) hresolve
    refine ⟨τ, c, entries, s, s', k', hg, ho, hn, hentries, hk', hkind'.trans hkind, hlaunch',
      hprovides, fun size => ⟨[List.range size], ?_⟩⟩
    rw [Kernel.threads, hlaunch', hlaunch]
  · have hbound' : ∀ name b, (name, b) ∈ ("workgroup_size", .int (.known width)) :: entries →
        injector.bindings.get? name = some b := fun name b hb => by
      rw [hbindings]
      exact Bindings.get?_ofList hnodup hb
    obtain ⟨k', hk', hkind', hlaunch', hprovides⟩ := provides_of_instantiate hd hinject htable hbound
      hpatches hbound' hresolve
    obtain ⟨n, -, hn'⟩ := hprovides.int (List.mem_cons_self ..)
    refine ⟨τ, c, entries, s, s', k', hg, ho, hn, hentries, hk', hkind'.trans hkind, hlaunch',
      fun name b hb => hprovides name b (List.mem_cons_of_mem _ hb), fun size => ?_⟩
    rw [Kernel.threads, hlaunch', hlaunch]
    simp only [hn']
    exact ⟨_, rfl⟩

end

namespace Graph

variable {α : Type}

/-- All dimensions of the variables that the outputs depend on have positive values. -/
def PositiveUnder (env : Valuation) (g : Graph α) : Prop :=
  ∀ vars, g.reachable = .ok vars → ∀ v ∈ vars, ∀ t, g.tensor v = .ok t →
    t.type.PositiveAt (Dim.resolve env)

/-- The slices that the outputs depend on end within the sizes that their inputs get. -/
def SlicesFit (env : Valuation) (g : Graph α) : Prop :=
  ∀ ops, g.topologicalOrder = .ok ops → ∀ o ∈ ops, ∀ node ins ts, g.node? o = some node →
    g.inputsOf o = .ok ins → g.tensors ins = .ok ts →
    ∀ t ∈ ts, node.op.SlicesWithin (t.type.sizesAt (Dim.resolve env))

end Graph

section

variable {α : Type} [Scalar α] [ScalarText α] {g : Graph α} {kind : BackendKind} {config : Config}
  {d : Descriptor α} {env : Valuation} {s s' : Supply}

/-- Symbolic kernels stay inside their operands. If all dimensions of the graph get positive values
and all patches can be applied, every kernel over linear memory reads and writes only inside the
regions of its operands, provided that every slice ends within the size that its input gets. -/
theorem staysInside_of_generate (hkind : kind ≠ .webGl) (hb : Built s g)
    (h : Gives (g.generate kind config) s d s') (hpos : g.PositiveUnder env)
    (hslices : g.SlicesFit env)
    (hpatches : ∀ k ∈ d.kernels, ∀ p ∈ k.patches, ∃ n, p.dim.resolve env = some n) :
    ∀ k ∈ d.kernels, ∃ k', k.instantiate? env = some k' ∧ k'.StaysInside env := by
  intro k hk
  obtain ⟨layout, ops, s₁, hlayout, hops, hall, -, -⟩ := filled_of_generate hkind h
  obtain ⟨o, ho, hfilled⟩ := exists_of_forall₂_right hall hk
  obtain ⟨τ, c, entries, r, r', k', rfl, rfl, hn, hentries, hk', hkind', -, hprovides, hthreads⟩ :=
    hfilled.instantiate (hpatches k hk)
  refine ⟨k', hk', ?_⟩
  have hval := Dim.reads_resolve env
  have hwf := hb.reached.wellformed
  have hsession := hb
  obtain ⟨ds, hsession⟩ := hsession
  obtain ⟨vars, ops', steps, start, final, hvars, hops', -, hplanned⟩ :=
    MemoryLayout.planned_allocate hval hb.reached hlayout
  obtain ⟨y, xs, hc⟩ : ∃ y xs, c.Ready (fun v => v ∈ vars) y xs :=
    KernelContext.exists_ready hwf hsession.typed hops hvars (fun _ hv => hv) ho hn
  have htypes : ∀ t ∈ y.type :: xs.map (·.type), t.PositiveAt (Dim.resolve env) := by
    intro t ht
    obtain ⟨v, u, hv, hu, rfl⟩ := hc.types t ht
    exact hpos vars hvars v hv u hu
  have hslices : ∀ x ∈ xs, c.node.op.SlicesWithin (x.type.sizesAt (Dim.resolve env)) := by
    obtain ⟨ins, ts, hins, hts, heq⟩ := KernelContext.tensors_of_inputs hc.inputs
    intro x hx
    obtain ⟨t, ht, heq⟩ := List.mem_map.1 (heq ▸ List.mem_map_of_mem hx)
    exact heq ▸ hslices ops hops c.id ho _ ins ts hn hins hts t ht
  have hreads := KernelContext.readsFrom_of_built hval (fun d e h => h.resolve env) hb hops ho hn hc
    htypes hslices
  have hloop := Linear.loop_of_provides hval hentries hc hprovides hkind' htypes hreads
  refine hloop.staysInside hthreads ?_ htypes hreads fun x hx a n ha hsize => ?_
  · rw [← KernelContext.length_of_fits hc.fits, List.length_map]
  · obtain ⟨-, t, ht, htype⟩ := hc.operand x hx
    have hx := htypes x.type (List.mem_map_of_mem (f := (·.type)) hx)
    rw [← htype] at hx ⊢
    exact hplanned.size_eq hval hsession.sound ha ht hx hsize

end

/-! ## A slice beyond its input -/

namespace Graph

/-- The type of the first two elements. -/
def pairType : TensorType := ⟨[.known 2], ⟨[.channel], List.nodup_singleton _⟩, rfl⟩

/-- The first two elements of a vector of symbolic length. -/
def cutOff : Graph ℚ where
  slots := #[.live { type := vector .channel, marks := [.input] } none,
    .live { type := pairType, marks := [.output] } (some ⟨0⟩)]
  nodes := #[some ⟨.slice [0] [2] [1], [⟨0⟩], ⟨1⟩⟩]
  declaredInputs := [⟨0⟩]
  declaredOutputs := [⟨1⟩]

theorem built_cutOff : Built ⟨1⟩ cutOff := by
  have made : (⟨vector .channel, [], none⟩ : Tensor ℚ).MadeFrom [.free ⟨0, "B"⟩] ⟨1⟩ ⟨1⟩ :=
    ⟨fun _ hd => hd, rfl, fun _ hx => by cases hx⟩
  have named : Makes (Dim.ofLabel "B") ⟨0⟩ (.free ⟨0, "B"⟩) ⟨1⟩ := rfl
  have started : Session true ⟨1⟩ [.free ⟨0, "B"⟩] ({} : Graph ℚ) := .symbol (.empty ⟨0⟩) named
  have computed : Gives ((({} : Graph ℚ).addInput ⟨vector .channel, [], none⟩).1.addOp
    (.slice [0] [2] [1]) [⟨0⟩]) ⟨1⟩ (_, ⟨1⟩) ⟨1⟩ := rfl
  exact ⟨_, .markOutput (.addOp (.addInput started made) computed)
    (rfl : Graph.markOutput _ ⟨1⟩ = .ok cutOff)⟩

/-- The two elements behind the vector. -/
def cutOffLayout : MemoryLayout where
  allocations := [(⟨0⟩, ⟨.dynamic, .known 0, .free ⟨0, "B"⟩⟩),
    (⟨1⟩, ⟨.dynamic, .free ⟨0, "B"⟩, .known 2⟩)]
  staticSize := 0
  dynamicSize := .derived 1 .add (.free ⟨0, "B"⟩) (.known 2)

/-- What the only kernel is bound to. -/
def cutOffBindings : List (String × Binding ℚ) :=
  [("y", .buffer ⟨.dynamic, .free ⟨0, "B"⟩, .known 2⟩),
    ("x", .buffer ⟨.dynamic, .known 0, .free ⟨0, "B"⟩⟩),
    ("y_shape", .ints [.known 2]),
    ("x_stride", .ints [.known 1]),
    ("size", .int (.known 2)),
    ("rank", .int (.known 1)),
    ("slice_begin", .ints [.known 0]),
    ("slice_step", .ints [.known 1])]

theorem topologicalOrder_cutOff : cutOff.topologicalOrder = .ok [⟨0⟩] := rfl

theorem allocates_cutOff : Gives (MemoryLayout.allocate cutOff) ⟨1⟩ cutOffLayout ⟨2⟩ := by
  unfold Gives
  cbv

theorem binds_cutOff {τ : Type} {target : τ} {config : Config} {s : Supply} :
    Gives (Linear.bindings cutOffLayout
      (⟨target, cutOff, config, ⟨0⟩, ⟨.slice [0] [2] [1], [⟨0⟩], ⟨1⟩⟩⟩ : KernelContext ℚ τ))
      s cutOffBindings s := rfl

theorem generates_cutOff : ∃ d, Gives (cutOff.generate .webAssembly {}) ⟨1⟩ d ⟨2⟩ := by
  have hwrites : ∀ e ∈ cutOffBindings, e.2.Writes := by
    simp [cutOffBindings, Binding.Writes, Dim.Fits, Dim.stored, Dim.known?]
  have hconstants : cutOffLayout.constants cutOff = .ok #[] :=
    MemoryLayout.constants_of_dynamic (by simp [cutOffLayout]) rfl
  obtain ⟨k, -, hk⟩ := CLike.generates_movement (g := cutOff) rfl (fun _ h => by cases h)
    topologicalOrder_cutOff allocates_cutOff binds_cutOff hwrites hconstants
  exact ⟨_, hk⟩

variable {env : Valuation} {n : Nat}

/-- The types of the variables. -/
theorem type_of_cutOff {v : VarId} {t : Tensor ℚ} (h : cutOff.tensor v = .ok t) :
    t.type = vector .channel ∨ t.type = pairType := by
  match v, h with
  | ⟨0⟩, h => exact .inl (congrArg (·.type) (Except.ok.inj h).symm)
  | ⟨1⟩, h => exact .inr (congrArg (·.type) (Except.ok.inj h).symm)
  | ⟨_ + 2⟩, h => cases h

theorem positive_cutOff (hn : (Dim.free ⟨0, "B"⟩).resolve env = some n) (hpos : 0 < n) :
    cutOff.PositiveUnder env := by
  intro vars _ v _ t ht d hd
  rcases type_of_cutOff ht with e | e <;> rw [e] at hd <;> obtain rfl := List.mem_singleton.1 hd
  · exact ⟨n, hn, hpos⟩
  · exact ⟨2, rfl, by decide⟩

/-- All patches of the kernel are for the length of the vector. -/
theorem patches_cutOff {d : Descriptor ℚ} (hn : (Dim.free ⟨0, "B"⟩).resolve env = some n)
    (hd : Gives (cutOff.generate .webAssembly {}) ⟨1⟩ d ⟨2⟩) :
    ∀ k ∈ d.kernels, ∀ p ∈ k.patches, ∃ m, p.dim.resolve env = some m := by
  obtain ⟨layout, ops, _, hlayout, hops, hall, -, -⟩ := filled_of_generate (by decide) hd
  obtain ⟨rfl, -⟩ : cutOffLayout = layout ∧ _ := by simpa using allocates_cutOff.symm.trans hlayout
  have hvector : (vector .channel).All fun d => ∃ m, d.resolve env = some m := {
    shape := fun d hd => List.mem_singleton.1 hd ▸ ⟨n, hn⟩
    strides := fun s ds s' h d hd => by
      obtain ⟨rfl, -⟩ := makes_pure_iff.1 h
      exact List.mem_singleton.1 hd ▸ ⟨1, rfl⟩
    size := fun s d s' h => by
      obtain ⟨rfl, -⟩ : Dim.free ⟨0, "B"⟩ = d ∧ s = s' := Prod.mk.inj h
      exact ⟨n, hn⟩ }
  have hpair : pairType.All fun d => ∃ m, d.resolve env = some m := {
    shape := fun d hd => List.mem_singleton.1 hd ▸ ⟨2, rfl⟩
    strides := fun s ds s' h d hd => by
      obtain ⟨rfl, -⟩ := makes_pure_iff.1 h
      exact List.mem_singleton.1 hd ▸ ⟨1, rfl⟩
    size := fun s d s' h => by
      obtain ⟨rfl, -⟩ : Dim.known 2 = d ∧ s = s' := Prod.mk.inj h
      exact ⟨2, rfl⟩ }
  obtain ⟨ds, hsession⟩ := built_cutOff
  intro k hk p hp
  obtain ⟨o, ho, hfill⟩ := exists_of_forall₂_right hall hk
  refine (hfill.forall_patches (P := fun d => ∃ m, d.resolve env = some m) hsession.wellformed
    hsession.typed hops (rfl : cutOff.reachable = .ok [⟨0⟩, ⟨1⟩]) ho (fun m => ⟨m, rfl⟩)
    (fun v _ t ht => ?_) ?_ p hp).2
  · rcases type_of_cutOff ht with e | e
    · exact e ▸ hvector
    · exact e ▸ hpair
  · simp only [cutOffLayout, List.forall_mem_cons, List.not_mem_nil, false_implies, implies_true,
      and_true]
    exact ⟨⟨0, rfl⟩, ⟨n, hn⟩⟩

/-- On a vector of five elements, the kernel stays inside. -/
theorem cutOff_staysInside : ∃ d, Gives (cutOff.generate .webAssembly {}) ⟨1⟩ d ⟨2⟩ ∧
    ∀ k ∈ d.kernels, ∃ k', k.instantiate? ⟨[(0, 5)]⟩ = some k' ∧ k'.StaysInside ⟨[(0, 5)]⟩ := by
  obtain ⟨d, hd⟩ := generates_cutOff
  have hn : (Dim.free ⟨0, "B"⟩).resolve ⟨[(0, 5)]⟩ = some 5 := rfl
  have hslices : cutOff.SlicesFit ⟨[(0, 5)]⟩ := by
    intro ops hops o ho node ins ts hnode hins hts t ht start stop step hop
    obtain rfl := Except.ok.inj (topologicalOrder_cutOff.symm.trans hops)
    obtain rfl := List.mem_singleton.1 ho
    obtain rfl : ⟨.slice [0] [2] [1], [⟨0⟩], ⟨1⟩⟩ = node := Option.some.inj hnode
    obtain rfl : [⟨0⟩] = ins := Except.ok.inj hins
    obtain rfl := Except.ok.inj hts
    obtain rfl := List.mem_singleton.1 ht
    cases hop
    decide
  exact ⟨d, hd, staysInside_of_generate (by decide) built_cutOff hd (positive_cutOff hn (by decide))
    hslices (patches_cutOff hn hd)⟩

/-- The kernel reads the second element for the second position. -/
theorem reads_cutOff {k : Kernel ℚ} (hkind : k.kind = .slice)
    (h : k.ProvidesAt (Dim.resolve env) cutOffBindings) :
    k.int? "size" = some 2 ∧ k.int? "rank" = some 1 ∧ k.readIndex? 1 "x" 1 = some 1 ∧
      k.buffer? "x" = some ⟨.dynamic, .known 0, .free ⟨0, "B"⟩⟩ := by
  have ints : ∀ name ns, (name, .ints (ns.map .known)) ∈ cutOffBindings →
      k.ints? name = some ns := by
    intro name ns hmem
    obtain ⟨ms, hms, hread⟩ := h.ints hmem
    rw [hread, hms.unique (readAs_known (Dim.reads_resolve env).known)]
  have int : ∀ name n, (name, .int (.known n)) ∈ cutOffBindings → k.int? name = some n := by
    intro name n hmem
    obtain ⟨m, hm, hread⟩ := h.int hmem
    exact hread.trans hm.symm
  have hshape := ints "y_shape" [2] (by simp [cutOffBindings])
  have hstride := ints "x_stride" [1] (by simp [cutOffBindings])
  have hbegin := ints "slice_begin" [0] (by simp [cutOffBindings])
  have hstep := ints "slice_step" [1] (by simp [cutOffBindings])
  refine ⟨int "size" 2 (by simp [cutOffBindings]), int "rank" 1 (by simp [cutOffBindings]), ?_,
    h.buffer (by simp [cutOffBindings])⟩
  simp [Kernel.readIndex?, hkind, OpKind.isElementwise, hshape, hstride, axisWalk,
    Kernel.movementPart, CoordinateRule.ofKind, CoordinateRule.coordinate?, hbegin, hstep]

/-- On a vector of one element, all sizes are positive and all patches can be applied, but the kernel
reads the second element. -/
theorem cutOff_leaves : Built ⟨1⟩ cutOff ∧ cutOff.PositiveUnder ⟨[(0, 1)]⟩ ∧
    ∃ d, Gives (cutOff.generate .webAssembly {}) ⟨1⟩ d ⟨2⟩ ∧
      (∀ k ∈ d.kernels, ∀ p ∈ k.patches, ∃ m, p.dim.resolve ⟨[(0, 1)]⟩ = some m) ∧
      ∃ k ∈ d.kernels, ∃ k' a, k.instantiate? ⟨[(0, 1)]⟩ = some k' ∧
        k'.readIndex? 1 "x" 1 = some 1 ∧ k'.buffer? "x" = some a ∧
        a.size.resolve ⟨[(0, 1)]⟩ = some 1 ∧ ¬k'.StaysInside ⟨[(0, 1)]⟩ := by
  obtain ⟨d, hd⟩ := generates_cutOff
  have hn : (Dim.free ⟨0, "B"⟩).resolve ⟨[(0, 1)]⟩ = some 1 := rfl
  have hresolve := patches_cutOff hn hd
  refine ⟨built_cutOff, positive_cutOff hn (by decide), d, hd, hresolve, ?_⟩
  obtain ⟨layout, ops, _, hlayout, hops, hall, -, -⟩ := filled_of_generate (by decide) hd
  obtain ⟨rfl, -⟩ : cutOffLayout = layout ∧ _ := by simpa using allocates_cutOff.symm.trans hlayout
  obtain rfl := Except.ok.inj (topologicalOrder_cutOff.symm.trans hops)
  obtain ⟨k, hk, hfill⟩ := exists_of_forall₂_left hall (List.mem_singleton_self _)
  obtain ⟨τ, c, entries, r, r', k', hg, hid, hnode, hentries, hk', hkind, hlaunch, hprovides, -⟩ :=
    hfill.instantiate (hresolve k hk)
  obtain ⟨target, graph, config, id, node⟩ := c
  dsimp only at hg hid hnode hentries hkind
  subst hg hid
  obtain rfl : ⟨.slice [0] [2] [1], [⟨0⟩], ⟨1⟩⟩ = node := Option.some.inj hnode
  obtain ⟨rfl, -⟩ : cutOffBindings = entries ∧ _ := by simpa using binds_cutOff.symm.trans hentries
  obtain ⟨hsize, hrank, hread, hbuffer⟩ := reads_cutOff hkind hprovides
  refine ⟨k, hk, k', _, hk', hread, hbuffer, hn, ?_⟩
  rintro ⟨size, rank, threads, hsize', hrank', hthreads, hinside⟩
  obtain rfl := Option.some.inj (hsize.symm.trans hsize')
  obtain rfl := Option.some.inj (hrank.symm.trans hrank')
  rw [Kernel.threads, hlaunch, CLike.serial_of_generate hd k hk] at hthreads
  obtain rfl := Option.some.inj hthreads
  obtain ⟨hreads, -⟩ := hinside _ (List.mem_singleton_self _) 1 (by decide)
  obtain ⟨a, index, ha, hindex, hholds⟩ := hreads "x" (by rw [hkind]; decide)
  obtain rfl := Option.some.inj (hbuffer.symm.trans ha)
  obtain rfl := Option.some.inj (hread.symm.trans hindex)
  exact absurd (hholds 1 hn) (Nat.lt_irrefl 1)

end Graph

end TensorCompiler
