import TensorCompiler.Proofs.ComputedValues
import TensorCompiler.Proofs.Constants
/-!
# Linear memory as a machine

The memory of a linear backend holds a variable in the cells of its region. Regions of variables
that are needed at the same time are apart, so a kernel, which writes the region of its output,
leaves everything else that is needed as it is.

* `MemoryLayout.cells?`: the cells of a variable.
* `Linear.EmittedFor.loop`: the loop of a kernel whose operands have known sizes.
* `Linear.LoopFor.fills`: it writes the value of the output, element by element.
* `MemoryLayout.takesFeeds`: a feed reaches its region and no other one.
* `MemoryLayout.serves`: memory under a layout computes the values of the graph.
-/

namespace TensorCompiler

open Dim

/-! ## Kernels -/

/-- What a kernel provides for known dimensions can be read. -/
theorem Kernel.Provides.at_known {α : Type} {layout : MemoryLayout} {k : Kernel α}
    {entries : List (String × Binding α)} (h : k.Provides entries)
    (hmade : ∀ e ∈ entries, e.2.Made layout fun d => ∃ n, d = known n) :
    k.ProvidesAt known? entries := by
  intro name b hb
  obtain ⟨value, hvalue, hstored⟩ := h.value name b hb
  refine ⟨value, hvalue, ?_⟩
  cases hmade _ hb with
  | region _ => exact hstored
  | scalar => exact hstored
  | int hx =>
    obtain ⟨n, rfl⟩ := hx
    exact ⟨n, rfl, hstored.1⟩
  | ints hxs =>
    refine ⟨_, ?_, hstored.1⟩
    rw [ReadAs, List.forall₂_map_right_iff]
    refine List.forall₂_same.2 fun x hx => ?_
    obtain ⟨n, rfl⟩ := hxs x hx
    rfl

section

variable {α : Type} [Scalar α] {g : Graph α} {fed : Values α} {o : OpId} {n : Node α}
  {y : Operand} {xs : List Operand} {ds : List (Array α)} {d : Array α} {layout : MemoryLayout}
  {k : Kernel α}

/-- A kernel computes the elements of its output. If there is one, then the loop of the kernel is
the one of its operator. -/
theorem Linear.EmittedFor.loop (hk : Linear.EmittedFor layout g o k) (hn : g.node? o = some n)
    (h : g.ComputedFrom fed o n y xs ds d) : k.int? "size" = some d.size ∧
      (0 < d.size → Linear.LoopFor known? layout n.op y xs k) := by
  obtain ⟨τ, c, entries, s, s', rfl, rfl, hnode, hentries, hprovides, -, hkind⟩ := hk.emitted
  obtain rfl := Option.some.inj (hn.symm.trans hnode)
  have hready := h.ready
  have hyconcrete := h.concrete y (List.mem_cons_self ..)
  have hyshape := TensorType.shape_eq_of_isConcrete hyconcrete
  refine ⟨?_, fun hpos => ?_⟩
  · obtain ⟨size, r, r', hsize, hmem⟩ : ∃ size r r', Makes (Dim.product y.type.shape) r size r' ∧
        ("size", .int size) ∈ entries := by
      unfold Linear.bindings at hentries
      split at hentries
      · next f hop =>
        obtain ⟨y', xs', order, place, size, s₁, operands, hy, hinputs, horder, -, hsize, -, rfl⟩ :=
          pointwiseBindings_gives hentries
        obtain rfl := Except.ok.inj (hready.output.symm.trans hy)
        obtain rfl := Except.ok.inj (hready.inputs.symm.trans hinputs)
        have hshape := (unify_of_fits (hop ▸ h.fits) horder).2.1
        rw [IterationOrder.size, hshape] at hsize
        exact ⟨size, s₁, s', hsize, by simp⟩
      · obtain ⟨y', x, place, input, strides, size, s₁, hy, -, -, -, -, hsize, rfl⟩ :=
          movementBindings_gives hentries
        obtain rfl := Except.ok.inj (hready.output.symm.trans hy)
        exact ⟨size, s₁, s', hsize, by simp⟩
    rw [hyshape] at hsize
    have hchecked := h.checked y (List.mem_cons_self ..)
    rw [(hprovides.int hmem).1, product_of_checked (hyshape ▸ hchecked) hsize, h.size]
    rfl
  · have hmade := Linear.made_of_bindings hready (h.all_known hpos) ⟨0, rfl⟩ ⟨_, rfl⟩
      (fun _ _ _ _ k _ => ⟨k, rfl⟩) hentries
    exact Linear.loop_of_provides Dim.reads_known hentries hready (hprovides.at_known hmade) hkind
      (h.positive hpos) (h.reads hpos)

end

/-! ## Cells -/

namespace MemoryLayout

variable {α : Type} {layout : MemoryLayout} {v w : VarId} {start n extent : Nat}

/-- Where the cells of a variable begin, and how many they are. -/
def cells? (layout : MemoryLayout) (v : VarId) : Option (Nat × Nat) := do
  let a ← layout.get? v
  return (← a.address? layout.staticSize, ← a.size.known?)

theorem cells?_eq_some_iff : layout.cells? v = some (start, n) ↔ ∃ a, layout.get? v = some a ∧
    a.address? layout.staticSize = some start ∧ a.size.known? = some n := by
  simp [cells?, Option.bind_eq_some_iff]

theorem contents?_eq (h : layout.cells? v = some (start, n)) (cells : Array α) :
    layout.contents? cells v = load? cells start n := by
  obtain ⟨a, ha, hstart, hn⟩ := cells?_eq_some_iff.1 h
  simp [contents?, ha, hstart, hn]

theorem storeAt?_eq (h : layout.cells? v = some (start, n)) (cells data : Array α) :
    layout.storeAt? cells (v, data) = store? cells start data := by
  obtain ⟨a, ha, hstart, -⟩ := cells?_eq_some_iff.1 h
  simp [storeAt?, ha, hstart]

/-- All regions lie in their spaces, when the dynamic one has this extent. -/
def Bounded (layout : MemoryLayout) (extent : Nat) : Prop :=
  ∀ e ∈ layout.allocations,
    e.2.Within known? (if e.2.space = .dynamic then extent else layout.staticSize)

theorem Bounded.exists_cells (h : layout.Bounded extent) {a : Allocation}
    (ha : layout.get? v = some a) : ∃ start n, layout.cells? v = some (start, n) ∧
      a.address? layout.staticSize = some start ∧ a.size.known? = some n ∧
      start + n ≤ layout.staticSize + extent := by
  obtain ⟨offset, n, ⟨hoffset, hn⟩, hle⟩ := h _ (mem_of_get? ha)
  have hstart : a.address? layout.staticSize = some (a.space.base layout.staticSize + offset) := by
    rw [Allocation.address?, hoffset]
    rfl
  refine ⟨_, n, cells?_eq_some_iff.2 ⟨a, ha, hstart, hn⟩, hstart, hn, ?_⟩
  dsimp only at hle
  cases hspace : a.space with
  | static =>
    simp only [hspace, MemorySpace.base] at hle ⊢
    simp at hle
    omega
  | dynamic =>
    simp only [hspace, MemorySpace.base] at hle ⊢
    simp at hle
    omega

/-- Regions that are apart have no cell in common. -/
theorem Bounded.cells_apart (h : layout.Bounded extent) {a b : Allocation} {start' n' : Nat}
    (ha : layout.get? v = some a) (hb : layout.get? w = some b) (hab : a.Apart known? b)
    (hv : layout.cells? v = some (start, n)) (hw : layout.cells? w = some (start', n')) :
    start + n ≤ start' ∨ start' + n' ≤ start := by
  obtain ⟨a', ha', hstart, hn⟩ := cells?_eq_some_iff.1 hv
  obtain ⟨b', hb', hstart', hn'⟩ := cells?_eq_some_iff.1 hw
  obtain rfl := Option.some.inj (ha.symm.trans ha')
  obtain rfl := Option.some.inj (hb.symm.trans hb')
  obtain ⟨i, m, ⟨hi, hm⟩, hin⟩ := h _ (mem_of_get? ha)
  obtain ⟨j, l, ⟨hj, hl⟩, hjn⟩ := h _ (mem_of_get? hb)
  dsimp only at hi hm hin hj hl hjn
  obtain rfl := Option.some.inj (hn.symm.trans hm)
  obtain rfl := Option.some.inj (hn'.symm.trans hl)
  rw [Allocation.address?, hi, Option.map_some, Option.some.injEq] at hstart
  rw [Allocation.address?, hj, Option.map_some, Option.some.injEq] at hstart'
  subst hstart hstart'
  rcases hab with hspace | ⟨i', m', j', l', ⟨hi', hm'⟩, ⟨hj', hl'⟩, hdisjoint⟩
  · -- The static space ends where the dynamic one begins.
    cases hs : a.space <;> cases hs' : b.space <;> simp_all [MemorySpace.base] <;> omega
  · cases hi.symm.trans hi'
    cases hj.symm.trans hj'
    cases hm.symm.trans hm'
    cases hl.symm.trans hl'
    by_cases hspace : a.space = b.space
    · rw [hspace]
      omega
    · cases hs : a.space <;> cases hs' : b.space <;> simp_all [MemorySpace.base] <;> omega

/-- What is written to one region changes no other one. -/
theorem Bounded.contents?_of_agree (h : layout.Bounded extent) {a b : Allocation}
    (ha : layout.get? v = some a) (hb : layout.get? w = some b) (hab : a.Apart known? b)
    (hv : layout.cells? v = some (start, n)) {cells cells' : Array α}
    (hagree : AgreeOutside start n cells cells') :
    layout.contents? cells' w = layout.contents? cells w := by
  obtain ⟨start', n', hw, -⟩ := h.exists_cells hb
  rw [contents?_eq hw, contents?_eq hw]
  exact hagree.load? (h.cells_apart ha hb hab hv hw).symm

end MemoryLayout

/-- The rounds of the loop write the elements that the operator determines, as long as the data of
the operands are in memory and apart from the region of the output. -/
theorem Linear.LoopFor.fills {α : Type} [Scalar α] {layout : MemoryLayout} {op : Operator α}
    {y : Operand} {xs : List Operand} {k : Kernel α} {ds : List (Array α)} {d cells : Array α}
    {start : Nat} (h : Linear.LoopFor known? layout op y xs k) (harity : xs.length = op.kind.arity)
    (hlen : ds.length = xs.length) (hd : op.Determines ((xs.map (·.type)).zip ds) y.type d)
    (hsize : d.size = y.type.sizes.prod) (hy : layout.cells? y.var = some (start, d.size))
    (hxs : ∀ p ∈ xs.zip ds, ∃ base, layout.cells? p.1.var = some (base, p.2.size) ∧
      load? cells base p.2.size = some p.2 ∧
      (base + p.2.size ≤ start ∨ start + d.size ≤ base)) :
    k.Fills layout.staticSize start d cells := by
  intro cells' hagree i v hv
  obtain ⟨hi, -⟩ := Array.getElem?_eq_some_iff.1 hv
  obtain ⟨a, ha, hbuffer⟩ := h.output
  obtain ⟨a', ha', hstart, -⟩ := MemoryLayout.cells?_eq_some_iff.1 hy
  obtain rfl := Option.some.inj (ha.symm.trans ha')
  let read (x : String) (index : Nat) : Option α := do
    cells'[(← (← k.buffer? x).address? layout.staticSize) + index]?
  have hread : ∀ name x e, (name, x) ∈ op.kind.inputNames.zip xs → (x, e) ∈ xs.zip ds →
      ∀ (j : Nat) u, e[j]? = some u → read name j = some u := by
    intro name x e hname hxe j u hu
    obtain ⟨b, hb, hbuffer⟩ := h.operand name x hname
    obtain ⟨base, hbase, hload, hapart⟩ := hxs _ hxe
    dsimp only at hbase hload hapart
    obtain ⟨b', hb', haddress, -⟩ := MemoryLayout.cells?_eq_some_iff.1 hbase
    obtain rfl := Option.some.inj (hb.symm.trans hb')
    obtain ⟨hj, -⟩ := Array.getElem?_eq_some_iff.1 hu
    have hcell := (load?_eq_some_iff.1 hload).2.2 j hj
    simp only [read, hbuffer, haddress, Option.bind_eq_bind, Option.bind_some]
    rw [hagree.cell _ (by omega), hcell, hu]
  have helement : k.element? y.type.rank read i = some v :=
    ((h.walks harity).element?_eq hlen hd hread hi).trans hv
  have hwrite := h.writes i (by rw [TensorType.sizesAt]; exact hsize ▸ hi)
  simp only [read, Option.bind_eq_bind] at helement
  simp only [Kernel.round?, h.rank, helement, hbuffer, hstart, hwrite, Option.bind_eq_bind,
    Option.bind_some]

namespace MemoryLayout

variable {α : Type} [Scalar α] {layout : MemoryLayout} {g : Graph α} {fed : Values α}
  {s s' : Supply} {extent : Nat}

/-- Memory under a layout. -/
def machine (layout : MemoryLayout) : Machine (Array α) α where
  contents? := layout.contents?
  storeAt? := layout.storeAt?
  runs k := k.RunsInMemory layout.staticSize

/-- A region has a cell for each element of its variable. -/
theorem size_of_cells (hg : Reached s g) (h : Gives (allocate g) s layout s') {v : VarId}
    {t : Tensor α} {start n size : Nat} (hv : layout.cells? v = some (start, n))
    (ht : g.tensor v = .ok t) (hsize : t.type.concreteSize = .ok size) : n = size := by
  obtain ⟨vars, ops, steps, p₁, p₂, -, -, -, hp⟩ := planned_allocate Dim.reads_known hg h
  obtain ⟨ds, hsession⟩ := hg
  obtain ⟨a, ha, -, hn⟩ := cells?_eq_some_iff.1 hv
  obtain ⟨t', ht', hmeasured⟩ := hp.measured (v, a) (hp.table ▸ mem_of_get? ha)
  obtain rfl := Except.ok.inj (ht.symm.trans ht')
  obtain ⟨q, hslot⟩ := Graph.tensor_ok_iff.1 ht
  obtain ⟨ns, hns, rfl⟩ := concreteSize_ok_iff.1 hsize
  rcases hmeasured with ⟨data, hdata, hknown⟩ | ⟨s₁, s₂, hmakes⟩
  · obtain ⟨ms, hms, hdatasize⟩ := (hsession.sound v t q hslot).2 data hdata
    obtain rfl := map_known_injective (hms.symm.trans hns)
    have hknown' : a.size = .known data.size := hknown
    rw [hknown'] at hn
    exact (Option.some.inj hn).symm.trans hdatasize
  · have hmakes' : Makes (Dim.product t.type.shape) s₁ a.size s₂ := hmakes
    rw [hns] at hmakes'
    exact Dim.reads_known.prod_eq (readAs_known fun _ => rfl) hmakes' hn

/-- The region of an output is apart from those of all variables that are held. -/
theorem held_apart (hg : Reached s g) (h : Gives (allocate g) s layout s')
    (hx : layout.dynamicSize.known? = some extent) {done later : List OpId} {o : OpId} {n : Node α}
    (hops : g.topologicalOrder = .ok (done ++ o :: later)) (hn : g.node? o = some n) :
    ∃ a, layout.get? n.output = some a ∧ ∀ v, g.HeldAt done (o :: later) v →
      ∃ b, layout.get? v = some b ∧ a.Apart known? b := by
  obtain ⟨vars, ops, steps, start, final, hvars, hops', hsteps, hp⟩ :=
    planned_allocate Dim.reads_known hg h
  obtain rfl := Except.ok.inj (hops'.symm.trans hops)
  obtain ⟨pre, rest, rfl, hpre, hrest⟩ := forall₂_append_left hsteps
  obtain ⟨m, post, hm, hpost, rfl⟩ := List.forall₂_cons_left_iff.1 hrest
  obtain ⟨a, ha, hspares⟩ := hp.spares extent hx pre m post rfl
  obtain ⟨n', hn', hout, -⟩ := id hm
  obtain rfl := Option.some.inj (hn.symm.trans hn')
  have hget : ∀ v, layout.get? v = final.get? v := fun v => by
    rw [get?, hp.table]
    rfl
  refine ⟨a, by rw [hget, hout, ha], fun v hv => ?_⟩
  rw [hget]
  refine hspares v (hv.present.imp ?_ ?_) ?_
  · rintro (hv | ⟨vars', t, d, hvars', hv, ht, hd⟩)
    · exact hp.inputs v hv
    · obtain rfl := Except.ok.inj (hvars.symm.trans hvars')
      exact hp.constants v hv t d ht hd
  · rintro ⟨q, hq, n', hn', rfl⟩
    obtain ⟨m', hm', n'', hn'', hout', -⟩ := exists_of_forall₂_left hpre hq
    obtain rfl := Option.some.inj (hn'.symm.trans hn'')
    exact List.mem_map.2 ⟨m', hm', hout'.symm⟩
  · rcases hv.needed with hv | hv | ⟨q, hq, ins, hins, hv⟩
    · exact .inl (List.mem_append_left _ hv)
    · exact .inl (List.mem_append_right _ hv)
    · obtain ⟨m', hm', -, -, -, hreads⟩ := exists_of_forall₂_left (.cons hm hpost) hq
      obtain rfl := Except.ok.inj (hins.symm.trans hreads)
      exact .inr ⟨m', hm', hv⟩

theorem bounded_of_allocate (hg : Reached s g) (h : Gives (allocate g) s layout s')
    (hx : layout.dynamicSize.known? = some extent) : layout.Bounded extent := by
  obtain ⟨vars, ops, steps, start, final, -, -, -, hp⟩ := planned_allocate Dim.reads_known hg h
  exact fun e he => hp.within hx he

theorem size_of_value (hg : Reached s g) (h : Gives (allocate g) s layout s')
    {feeds : List (VarId × Array α)} (hfeed : feeds.foldlM g.feed {} = .ok fed) {v : VarId}
    {e : Array α} {start n : Nat} (he : g.HasValue fed v e)
    (hv : layout.cells? v = some (start, n)) : n = e.size := by
  obtain ⟨u, hu, hsize⟩ := he.concreteSize hg hfeed
  exact size_of_cells hg h hv hu hsize

theorem takesFeeds (hg : Reached s g) (h : Gives (allocate g) s layout s')
    (hx : layout.dynamicSize.known? = some extent) :
    layout.machine.TakesFeeds g fun cells => cells.size = layout.staticSize + extent := by
  intro cells v d t hvalid hv ht hsize
  have hbounded := bounded_of_allocate hg h hx
  obtain ⟨vars, ops, -, -, -, hvars, hops, -⟩ := planned_allocate Dim.reads_known hg h
  obtain ⟨a, ha⟩ := (placed_of_allocate h).2 vars hvars v
    ((Graph.mem_reachable_iff hops hvars).2 (.inl hv))
  obtain ⟨start, m, hcells, -, -, hle⟩ := hbounded.exists_cells ha
  obtain rfl := size_of_cells hg h hcells ht hsize
  have hfit : start + d.size ≤ cells.size := hvalid ▸ hle
  obtain ⟨cells', hstore, hagree, hstored⟩ := exists_store hfit
  refine ⟨cells', (storeAt?_eq hcells cells d).trans hstore, hagree.size.trans hvalid,
    (contents?_eq hcells cells').trans
      (load?_eq_some_iff.2 ⟨hagree.size ▸ hfit, rfl, hstored⟩), fun w hw hne => ?_⟩
  obtain ⟨a', b, ha', hb', hapart⟩ := stored_apart Dim.reads_known hg h hx hne.symm (.inl hv) hw
  exact hbounded.contents?_of_agree ha' hb' hapart hcells hagree

/-- Where the operands of an operator are in memory, its kernel fills the region of the output. -/
theorem fills_of_emitted (hg : Reached s g) (h : Gives (allocate g) s layout s')
    {feeds : List (VarId × Array α)} (hfeed : feeds.foldlM g.feed {} = .ok fed)
    (hbounded : layout.Bounded extent) {o : OpId} {k : Kernel α} {n : Node α} {y : Operand}
    {xs : List Operand} {ds : List (Array α)} {d cells : Array α} {a : Allocation} {start : Nat}
    (hk : Linear.EmittedFor layout g o k) (hn : g.node? o = some n)
    (hcomputed : g.ComputedFrom fed o n y xs ds d) (ha : layout.get? y.var = some a)
    (hcells : layout.cells? y.var = some (start, d.size))
    (hoperands : ∀ p ∈ xs.zip ds, layout.contents? cells p.1.var = some p.2 ∧
      ∃ b, layout.get? p.1.var = some b ∧ a.Apart known? b) :
    k.Fills layout.staticSize start d cells := by
  obtain ⟨-, hloop⟩ := hk.loop hn hcomputed
  by_cases hpos : 0 < d.size
  · have harity : xs.length = n.op.kind.arity := by
      rw [← KernelContext.length_of_fits hcomputed.fits, List.length_map]
    refine (hloop hpos).fills harity hcomputed.length hcomputed.determines hcomputed.size hcells
      fun p hp => ?_
    obtain ⟨hcontents, b, hb, hab⟩ := hoperands p hp
    obtain ⟨base, l, hbase, -⟩ := hbounded.exists_cells hb
    obtain rfl := size_of_value hg h hfeed (hcomputed.values p hp) hbase
    exact ⟨base, hbase, (contents?_eq hbase cells).symm.trans hcontents,
      (hbounded.cells_apart ha hb hab hcells hbase).symm⟩
  · intro cells' _ i v hv
    obtain ⟨hi, -⟩ := Array.getElem?_eq_some_iff.1 hv
    omega

/-- Memory under a layout computes the values of a graph, if its dynamic space has a known
extent. -/
theorem serves (hb : Built s g) (hbound : g.Bound) (h : Gives (allocate g) s layout s')
    (hx : layout.dynamicSize.known? = some extent) {feeds : List (VarId × Array α)}
    (hfeed : feeds.foldlM g.feed {} = .ok fed) :
    layout.machine.Serves g fed (fun cells => cells.size = layout.staticSize + extent)
      (Linear.EmittedFor layout g) := by
  have hg := hb.reached
  have hbounded := bounded_of_allocate hg h hx
  refine Machine.serves_of_built hb hbound hfeed (takesFeeds hg h hx) ?_
  intro done o later k n y xs ds d cells hops hk hn hcomputed hvalid hoperands
  obtain ⟨a, ha, hapart⟩ := held_apart hg h hx hops hn
  obtain ⟨u, hu, rfl⟩ := hcomputed.output
  obtain ⟨start, m, hcells, -, -, hle⟩ := hbounded.exists_cells ha
  obtain rfl : m = d.size := size_of_cells hg h hcells hu
    (concreteSize_ok_iff.2 ⟨_, TensorType.shape_eq_of_isConcrete
      (hcomputed.concrete _ (List.mem_cons_self ..)), hcomputed.size⟩)
  have hfills := fills_of_emitted hg h hfeed hbounded hk hn hcomputed ha hcells fun p hp =>
    ⟨(hoperands p hp).2, hapart _ (hoperands p hp).1⟩
  have hfit : start + d.size ≤ cells.size := hvalid ▸ hle
  obtain ⟨hexists, hall⟩ := hfills.runs hfit hk.starts (hk.loop hn hcomputed).1
  refine ⟨hexists, fun cells' hrun => ?_⟩
  obtain ⟨hagree, hload⟩ := hall cells' hrun
  refine ⟨hagree.size.trans hvalid, (contents?_eq hcells cells').trans hload, fun w hw _ => ?_⟩
  obtain ⟨b, hb', hab⟩ := hapart w hw
  exact hbounded.contents?_of_agree ha hb' hab hcells hagree

/-- Memory before the feeds: the constants lie in the static space. -/
theorem exists_blank (extent : Nat) (h : Gives (allocate g) s layout s') {constants : Array α}
    (hconstants : layout.constants g = .ok constants) : ∃ cells,
      store? (Array.replicate (layout.staticSize + extent) Scalar.zero) 0 constants = some cells ∧
      cells.size = layout.staticSize + extent ∧ ∀ v vars t d, g.reachable = .ok vars → v ∈ vars →
        g.tensor v = .ok t → t.data = some d → layout.contents? cells v = some d := by
  obtain ⟨hsize, hdata⟩ := load?_constants h hconstants
  have hfit : 0 + constants.size ≤
      (Array.replicate (layout.staticSize + extent) (Scalar.zero : α)).size := by
    rw [Array.size_replicate]
    omega
  obtain ⟨cells, hstore, hagree, hcells⟩ := exists_store hfit
  have hcount : cells.size = layout.staticSize + extent := by
    rw [hagree.size, Array.size_replicate]
  refine ⟨cells, hstore, hcount, fun v vars t d hvars hv ht hd => ?_⟩
  obtain ⟨start, hplace, hload⟩ := hdata v vars t d hvars hv ht hd
  have hplaced : layout.cells? v = some (start, d.size) :=
    cells?_eq_some_iff.2 ⟨_, hplace, by simp [Allocation.address?, MemorySpace.base, known?], rfl⟩
  obtain ⟨hle, -, hcell⟩ := load?_eq_some_iff.1 hload
  rw [contents?_eq hplaced, load?_eq_some_iff]
  refine ⟨by omega, rfl, fun i hi => ?_⟩
  have := hcells (start + i) (by omega)
  rw [Nat.zero_add] at this
  rw [this, hcell i hi]

end MemoryLayout

end TensorCompiler
