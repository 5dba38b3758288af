import TensorCompiler.Proofs.MemoryMachine
import TensorCompiler.Proofs.TextureMachine
/-!
# Backends agree with the interpreter

Whatever the backend, its kernels compute what the interpreter computes. The descriptor of a graph
is executed from what a loader sees of it: the constants and the feeds lie at their places, and the
kernels run one after the other. However the threads of each kernel interleave, the data at the
places of the outputs are in the end those that running the graph gives.

**Hypotheses.** The graph was built by calls (`Built`), so the types of all operands fit their
operators. Every leaf that the outputs depend on is a declared input or a constant (`Graph.Bound`):
another leaf has a place, but nobody fills it. On the linear backends, the extent of the dynamic
space must be known (`Descriptor.HasExtent`), since memory is made before it is filled. Feeds go to
declared inputs, which are the only variables that are kept from the start on.

That shapes are known need not be assumed. A value has the size of its variable, so running the
graph computes known sizes only, and layouts with a known extent, and those of textures, have no
others.

* `Graph.PlacesFeeds`: the feeds under the handles that the layout knows.
* `Graph.executes_in_memory`, `Graph.executes_on_textures`: the two kinds of storage.
* `Graph.executes_of_generate`: the descriptors of all backends.
-/

namespace TensorCompiler

/-- The extent of the dynamic space is known, if there is one. -/
def Descriptor.HasExtent {α : Type} (d : Descriptor α) : Prop :=
  ∀ layout, d.layout = .memory layout → ∃ extent, layout.dynamicSize.known? = some extent

namespace Graph

variable {α : Type} [Scalar α] {g : Graph α} {feeds placed out : List (VarId × Array α)}
  {s s' : Supply} {config : Config} {d : Descriptor α}

/-- The feeds under the handles that the layout knows. -/
def PlacesFeeds (g : Graph α) (feeds placed : List (VarId × Array α)) : Prop :=
  List.Forall₂ (fun e p => g.resolve e.1 = .ok p.1 ∧ p.2 = e.2) feeds placed

omit [Scalar α] in
theorem FeedsInputs.exists_places (h : g.FeedsInputs feeds) : ∃ placed, g.PlacesFeeds feeds placed :=
  exists_forall₂ fun e he => by
    obtain ⟨v, -, hv⟩ := h e he
    exact ⟨(v, e.2), hv, rfl⟩

/-- The data at the places of the outputs are those that the interpreter gives. -/
def LeavesOutputs (g : Graph α) (d : Descriptor α) (out : List (VarId × Array α))
    (final : Storage α) : Prop :=
  List.Forall₂ (fun v e => e.1 = v ∧ d.layout.contents? final v = some e.2) g.outputs out

variable [ScalarText α]

theorem executes_in_memory {kind : BackendKind} (hkind : kind ≠ .webGl) (hb : Built s g)
    (hbound : g.Bound) (h : Gives (g.generate kind config) s d s') (hextent : d.HasExtent)
    (hf : g.FeedsInputs feeds) (hplaced : g.PlacesFeeds feeds placed)
    (hrun : g.run feeds = .ok out) :
    (∃ final, d.Executes placed final) ∧
      ∀ final, d.Executes placed final → g.LeavesOutputs d out final := by
  have hg := hb.reached
  obtain ⟨layout, ops, s₁, hlayout, hops, hkernels, hd, hconstants⟩ := generate_linear hkind h
  obtain ⟨vars, hvars⟩ := reachable_ok hg.wellformed hops
  obtain ⟨extent, hx⟩ := hextent layout hd
  obtain ⟨fed, hfed, -⟩ := (run_ok_iff hg.wellformed hf).1 hrun
  obtain ⟨cells, hcells, hsize, hstored⟩ :=
    MemoryLayout.exists_blank extent hlayout hconstants
  obtain ⟨start, hstart, ⟨final, hfinal⟩, hall⟩ :=
    (MemoryLayout.serves hb hbound hlayout hx hfed).executes hg.wellformed hbound hops hkernels
      hplaced hf hfed hrun hsize fun v t e hv ht he =>
        hstored v vars t e hvars (hv.reachable hops hvars) ht he
  have hpreset : layout.preset? d.constants placed = some start := by
    simp only [MemoryLayout.preset?, hx, hcells, Option.bind_eq_bind, Option.bind_some]
    exact hstart
  unfold Descriptor.Executes LeavesOutputs
  rw [hd]
  refine ⟨⟨.cells final, start, final, hpreset, hfinal, rfl⟩, ?_⟩
  rintro _ ⟨start', final', hpreset', hfinal', rfl⟩
  obtain rfl := Option.some.inj (hpreset.symm.trans hpreset')
  exact hall final' hfinal'

theorem executes_on_textures (hb : Built s g) (hbound : g.Bound)
    (h : Gives (g.generate .webGl config) s d s') (hf : g.FeedsInputs feeds)
    (hplaced : g.PlacesFeeds feeds placed) (hrun : g.run feeds = .ok out) :
    (∃ final, d.Executes placed final) ∧
      ∀ final, d.Executes placed final → g.LeavesOutputs d out final := by
  have hg := hb.reached
  obtain ⟨layout, ops, hcheck, hlayout, hops, hkernels, hd, hconstants⟩ := generate_texture h
  obtain ⟨vars, hvars⟩ := reachable_ok hg.wellformed hops
  obtain ⟨fed, hfed, -⟩ := (run_ok_iff hg.wellformed hf).1 hrun
  have hhouses := TextureLayout.houses_of_allocate hlayout hcheck
  obtain ⟨hheld, hstored⟩ := TextureLayout.held_blank hg hlayout hhouses hconstants
  obtain ⟨start, hstart, ⟨final, hfinal⟩, hall⟩ :=
    (TextureLayout.serves hb hbound hhouses hfed hops).executes hg.wellformed hbound hops hkernels
      hplaced hf hfed hrun hheld fun v t e hv ht he =>
        hstored v vars t e hvars (hv.reachable hops hvars) ht he
  have hpreset : layout.preset? d.constants placed = some start := hstart
  unfold Descriptor.Executes LeavesOutputs
  rw [hd]
  refine ⟨⟨.textures final, start, final, hpreset, hfinal, rfl⟩, ?_⟩
  rintro _ ⟨start', final', hpreset', hfinal', rfl⟩
  obtain rfl := Option.some.inj (hpreset.symm.trans hpreset')
  exact hall final' hfinal'

/-- The kernels of every backend agree with the interpreter: if a graph is compiled and can be run
on some feeds, then its descriptor can be executed on them, and every execution leaves at the places
of the outputs what running the graph gives for them. -/
theorem executes_of_generate {kind : BackendKind} (hb : Built s g) (hbound : g.Bound)
    (h : Gives (g.generate kind config) s d s') (hextent : d.HasExtent)
    (hf : g.FeedsInputs feeds) (hrun : g.run feeds = .ok out) :
    ∃ placed, g.PlacesFeeds feeds placed ∧ (∃ final, d.Executes placed final) ∧
      ∀ final, d.Executes placed final → g.LeavesOutputs d out final := by
  obtain ⟨placed, hplaced⟩ := hf.exists_places
  refine ⟨placed, hplaced, ?_⟩
  by_cases hkind : kind = .webGl
  · subst hkind
    exact executes_on_textures hb hbound h hf hplaced hrun
  · exact executes_in_memory hkind hb hbound h hextent hf hplaced hrun

/-- The repetition of a seven leaves a seven. -/
theorem repeated_executes : ∃ d, Gives ((repeated [⟨0⟩] [.input]).generate .webAssembly {}) {} d {} ∧
    (∃ final, d.Executes [(⟨0⟩, #[7])] final) ∧ ∀ final, d.Executes [(⟨0⟩, #[7])] final →
      d.layout.contents? final ⟨1⟩ = some #[7] := by
  obtain ⟨d, k, hd, -, hlayout, -⟩ := generates_repeated allocates_repeated rfl
    ⟨_, _, rfl, rfl, by decide, by decide⟩
  have hextent : d.HasExtent := fun layout hl => by
    cases hlayout.symm.trans hl
    exact ⟨2, rfl⟩
  have hf : (repeated [⟨0⟩] [.input]).FeedsInputs [(⟨0⟩, #[7])] :=
    List.forall_mem_singleton.2 ⟨⟨0⟩, .head _, rfl⟩
  have hrun : (repeated [⟨0⟩] [.input]).run [(⟨0⟩, #[7])] = .ok [(⟨1⟩, #[7])] := by
    cbv
  obtain ⟨placed, hplaced, hexists, hall⟩ :=
    executes_of_generate built_repeated.1 bound_repeated hd hextent hf hrun
  obtain ⟨p, rest, ⟨hp, hdata⟩, hrest, rfl⟩ := List.forall₂_cons_left_iff.1 hplaced
  cases hrest
  obtain rfl : p = (⟨0⟩, #[7]) := Prod.ext (Except.ok.inj hp).symm hdata
  refine ⟨d, hd, hexists, fun final hfinal => ?_⟩
  obtain ⟨⟨-, hcontents⟩, -⟩ := List.forall₂_cons.1 (hall final hfinal)
  exact hcontents

end Graph

end TensorCompiler
