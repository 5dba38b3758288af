import TensorCompiler.Proofs.Execution
import TensorCompiler.Proofs.Liveness
import TensorCompiler.Proofs.Subgraphs
/-!
# Machines that compute a graph

A machine keeps the data of variables, each at its place, and runs kernels on them. It computes the
values of a graph if a feed changes no other leaf, and if the kernel of an operator, run where its
operands have their values, leaves the value of its output and whatever is still needed.

* `Graph.HeldAt`: the variables whose data must be at their places between two operators.
* `Machine.Serves`: what feeds and kernels do.
* `Machine.Serves.presets`, `Machine.Serves.runs`: what holds after the feeds, and after some
  operators.
* `Machine.Serves.executes`: an execution exists, and any one leaves the values of the outputs.
-/

namespace TensorCompiler

namespace Graph

variable {α : Type} {g : Graph α}

/-- Variables that have their data before the first operator. -/
def Stored (g : Graph α) (v : VarId) : Prop :=
  v ∈ g.inputs ∨ ∃ vars t d, g.reachable = .ok vars ∧ v ∈ vars ∧ g.tensor v = .ok t ∧
    t.data = some d

/-- The data of these variables are there after some operators, and are read again: by a later
operator, or from outside. -/
structure HeldAt (g : Graph α) (done later : List OpId) (v : VarId) : Prop where
  present : g.Stored v ∨ ∃ q ∈ done, ∃ n, g.node? q = some n ∧ n.output = v
  needed : v ∈ g.inputs ∨ v ∈ g.outputs ∨ ∃ q ∈ later, ∃ ins, g.inputsOf q = .ok ins ∧ v ∈ ins

/-- They are among the variables that the outputs depend on. -/
theorem Stored.reachable {ops : List OpId} {vars : List VarId} {v : VarId} (hv : g.Stored v)
    (hops : g.topologicalOrder = .ok ops) (hvars : g.reachable = .ok vars) : v ∈ vars := by
  rcases hv with hv | ⟨vars', t, d, hvars', hv, -, -⟩
  · exact (mem_reachable_iff hops hvars).2 (.inl hv)
  · rwa [Except.ok.inj (hvars.symm.trans hvars')]

/-- Variables with stored data are not computed. -/
theorem Stored.fetch [Scalar α] {fed : Values α} {v : VarId} {d : Array α} (hv : g.Stored v)
    (hg : g.Wellformed) (h : g.HasValue fed v d) : g.fetch fed v = .ok d := by
  cases h with
  | leaf _ _ hfetch => exact hfetch
  | computed hvi hp _ _ _ ht _ _ _ =>
    rcases hv with hv | ⟨vars, t, e, -, -, htv, he⟩
    · exact absurd hv hvi
    · obtain ⟨w, u, hw, hslot⟩ := producer_some_iff.1 hp
      rw [resolve_of_tensor htv] at hw
      cases hw
      cases htv.symm.trans (tensor_ok_iff.2 ⟨_, hslot⟩)
      rw [(hg.produced _ _ _ hslot).1] at he
      cases he

/-- The operands of the next operator are there. -/
theorem heldAt_operand {done later : List OpId} {o : OpId} {ins : List VarId} {v : VarId}
    (hg : g.Wellformed) (hb : g.Bound) (hops : g.topologicalOrder = .ok (done ++ o :: later))
    (hins : g.inputsOf o = .ok ins) (hv : v ∈ ins) : g.HeldAt done (o :: later) v := by
  refine ⟨?_, .inr (.inr ⟨o, List.mem_cons_self .., ins, hins, hv⟩)⟩
  obtain ⟨vars, hvars⟩ := reachable_ok hg hops
  rcases hb.cases hg hops hvars (by simp) hins hv with hi | ⟨hmem, t, d, ht, hd⟩ | ⟨c, n, hc, hn, rfl⟩
  · exact .inl (.inl hi)
  · exact .inl (.inr ⟨vars, t, d, hvars, hmem, ht, hd⟩)
  · exact .inr ⟨c, (ordered_topologicalOrder hops).behind done o later rfl c hc, n, hn, rfl⟩

/-- So are the outputs, after the last operator. -/
theorem heldAt_output {ops : List OpId} {v : VarId} (hg : g.Wellformed) (hb : g.Bound)
    (hops : g.topologicalOrder = .ok ops) (hv : v ∈ g.outputs) : g.HeldAt ops [] v := by
  refine ⟨?_, .inr (.inl hv)⟩
  by_cases hvi : v ∈ g.inputs
  · exact .inl (.inl hvi)
  · cases hp : g.producer v with
    | none =>
      obtain ⟨vars, hvars⟩ := reachable_ok hg hops
      have hmem : v ∈ vars := (mem_reachable_iff hops hvars).2 (.inr (.inl hv))
      rcases hb vars hvars v hmem hp with hi | ⟨t, d, ht, hd⟩
      · exact absurd hi hvi
      · exact .inl (.inr ⟨vars, t, d, hvars, hmem, ht, hd⟩)
    | some o =>
      obtain ⟨n, hn, hout⟩ := output_of_producer hg hp
      have hroot : o ∈ g.rootOps := mem_rootOps.2 ⟨v, hv, hvi, hp⟩
      exact .inr ⟨o, mem_topologicalOrder_of_root hops hroot, n, hn,
        Except.ok.inj (hout.symm.trans (resolve_of_mem_outputs hv))⟩

end Graph

/-- How a backend keeps the data of variables, and what its kernels do. -/
structure Machine (σ α : Type) where
  contents? : σ → VarId → Option (Array α)
  storeAt? : σ → VarId × Array α → Option σ
  runs : Kernel α → σ → σ → Prop

namespace Machine

variable {σ α : Type} [Scalar α] {m : Machine σ α} {g : Graph α} {fed : Values α}
  {Valid : σ → Prop} {R : OpId → Kernel α → Prop}

/-- The variables that must be at their places have their values there. -/
def Holds (m : Machine σ α) (g : Graph α) (fed : Values α) (done later : List OpId) (st : σ) : Prop :=
  ∀ v d, g.HeldAt done later v → g.HasValue fed v d → m.contents? st v = some d

/-- The machine can take a feed, which changes no other variable with stored data. -/
def TakesFeeds (m : Machine σ α) (g : Graph α) (Valid : σ → Prop) : Prop :=
  ∀ st v d t, Valid st → v ∈ g.inputs → g.tensor v = .ok t → t.type.concreteSize = .ok d.size →
    ∃ st', m.storeAt? st (v, d) = some st' ∧ Valid st' ∧ m.contents? st' v = some d ∧
      ∀ w, g.Stored w → w ≠ v → m.contents? st' w = m.contents? st w

/-- The machine can take feeds. The kernel of an operator leaves the value of its output and does
not change what must be at its place. -/
structure Serves (m : Machine σ α) (g : Graph α) (fed : Values α) (Valid : σ → Prop)
    (R : OpId → Kernel α → Prop) : Prop where
  feed : m.TakesFeeds g Valid
  step : ∀ done o later k n d st, g.topologicalOrder = .ok (done ++ o :: later) → R o k →
    g.node? o = some n → g.HasValue fed n.output d → Valid st →
    m.Holds g fed done (o :: later) st → (∃ st', m.runs k st st') ∧ ∀ st', m.runs k st st' →
      Valid st' ∧ m.contents? st' n.output = some d ∧
      ∀ w, g.HeldAt done (o :: later) w → w ≠ n.output → m.contents? st' w = m.contents? st w

/-- The feeds reach their places, one after the other. -/
theorem Serves.presets (h : m.Serves g fed Valid R) {feeds placed : List (VarId × Array α)}
    {values : Values α} {st : σ}
    (hplaced : List.Forall₂ (fun e p => g.resolve e.1 = .ok p.1 ∧ p.2 = e.2) feeds placed)
    (hf : g.FeedsInputs feeds) (hvalid : Valid st)
    (hst : ∀ v d, g.Stored v → g.fetch values v = .ok d → m.contents? st v = some d)
    (hfed : feeds.foldlM g.feed values = .ok fed) :
    ∃ start, placed.foldlM m.storeAt? st = some start ∧ Valid start ∧
      ∀ v d, g.Stored v → g.fetch fed v = .ok d → m.contents? start v = some d := by
  induction hplaced generalizing values st with
  | nil =>
    cases hfed
    exact ⟨st, rfl, hvalid, hst⟩
  | @cons e p feeds placed hep _ ih =>
    obtain ⟨he, hf⟩ := List.forall_mem_cons.1 hf
    rw [List.foldlM_cons] at hfed
    obtain ⟨values', hstep, hfed⟩ := bind_ok_iff.1 hfed
    obtain ⟨v, t, hv, ht, hsize, rfl⟩ := Graph.feed_ok_iff.1 hstep
    obtain ⟨hep, hdata⟩ := hep
    obtain rfl := Except.ok.inj (hep.symm.trans hv)
    obtain ⟨w, hw, hw'⟩ := he
    obtain rfl := Except.ok.inj (hw'.symm.trans hep)
    obtain ⟨st', hstore, hvalid', hcontents, hothers⟩ :=
      h.feed st p.1 p.2 t hvalid hw ht (hdata ▸ hsize)
    have keeps : ∀ u c, g.Stored u → g.fetch (values.set p.1 e.2) u = .ok c →
        m.contents? st' u = some c := by
      intro u c hu hc
      by_cases huv : u = p.1
      · subst huv
        rw [Graph.fetch, Values.get?_set, if_pos rfl] at hc
        cases hc
        rw [hcontents, hdata]
      · have hget : (values.set p.1 e.2).get? u = values.get? u := by
          rw [Values.get?_set, if_neg huv]
        rw [hothers u hu huv]
        exact hst u c hu (Graph.fetch_congr hget ▸ hc)
    obtain ⟨start, hrest, hstart⟩ := ih hf hvalid' keeps hfed
    refine ⟨start, ?_, hstart⟩
    rw [List.foldlM_cons, Option.bind_eq_bind, hstore]
    exact hrest

/-- Whatever holds before an operator holds behind it, for the variables needed then. -/
theorem Holds.step {done later : List OpId} {o : OpId} {n : Node α} {d : Array α} {st st' : σ}
    (h : m.Holds g fed done (o :: later) st) (hn : g.node? o = some n)
    (hd : g.HasValue fed n.output d) (hcontents : m.contents? st' n.output = some d)
    (hothers : ∀ w, g.HeldAt done (o :: later) w → w ≠ n.output →
      m.contents? st' w = m.contents? st w) : m.Holds g fed (done ++ [o]) later st' := by
  intro v e hv he
  by_cases hvn : v = n.output
  · subst hvn
    rw [hcontents, hd.unique he]
  · have hheld : g.HeldAt done (o :: later) v := by
      refine ⟨hv.present.imp_right ?_, hv.needed.imp_right (Or.imp_right ?_)⟩
      · rintro ⟨q, hq, n', hn', hout⟩
        rcases List.mem_append.1 hq with hq | hq
        · exact ⟨q, hq, n', hn', hout⟩
        · cases List.mem_singleton.1 hq
          cases hn.symm.trans hn'
          exact absurd hout.symm hvn
      · rintro ⟨q, hq, ins, hins⟩
        exact ⟨q, List.mem_cons_of_mem _ hq, ins, hins⟩
    rw [hothers v hheld hvn]
    exact h v e hheld he

/-- The kernels of the operators, one after the other. -/
theorem Serves.runs (h : m.Serves g fed Valid R) {done later : List OpId} {ks : List (Kernel α)}
    {st : σ} (hops : g.topologicalOrder = .ok (done ++ later)) (hks : List.Forall₂ R later ks)
    (hvalues : ∀ o ∈ done ++ later, ∀ n, g.node? o = some n → ∃ d, g.HasValue fed n.output d)
    (hnodes : ∀ o ∈ done ++ later, ∃ n, g.node? o = some n) (hvalid : Valid st)
    (hst : m.Holds g fed done later st) :
    (∃ final, RunsEach m.runs ks st final) ∧
      ∀ final, RunsEach m.runs ks st final → m.Holds g fed (done ++ later) [] final := by
  induction hks generalizing done st with
  | nil =>
    refine ⟨⟨st, rfl⟩, ?_⟩
    rintro final rfl
    simpa using hst
  | @cons o k later ks hk _ ih =>
    obtain ⟨n, hn⟩ := hnodes o (by simp)
    obtain ⟨d, hd⟩ := hvalues o (by simp) n hn
    obtain ⟨⟨st₁, hrun⟩, hall⟩ := h.step done o later k n d st hops hk hn hd hvalid hst
    have next : ∀ st', m.runs k st st' → (∃ final, RunsEach m.runs ks st' final) ∧
        ∀ final, RunsEach m.runs ks st' final → m.Holds g fed (done ++ o :: later) [] final := by
      intro st' hrun'
      obtain ⟨hvalid', hcontents, hothers⟩ := hall st' hrun'
      have hsplit : done ++ o :: later = done ++ [o] ++ later := by simp
      rw [hsplit]
      exact ih (hsplit ▸ hops) (hsplit ▸ hvalues) (hsplit ▸ hnodes) hvalid'
        (hst.step hn hd hcontents hothers)
    constructor
    · obtain ⟨⟨final, hfinal⟩, -⟩ := next st₁ hrun
      exact ⟨final, st₁, hrun, hfinal⟩
    · rintro final ⟨st', hrun', hfinal⟩
      exact (next st' hrun').2 final hfinal

/-- After the feeds, the kernels can be run one after the other, and however they run, they leave
at the places of the outputs what the graph computes for them. -/
theorem Serves.executes (h : m.Serves g fed Valid R) (hg : g.Wellformed) (hb : g.Bound)
    {feeds placed out : List (VarId × Array α)} {ops : List OpId} {ks : List (Kernel α)} {st : σ}
    (hops : g.topologicalOrder = .ok ops) (hks : List.Forall₂ R ops ks)
    (hplaced : List.Forall₂ (fun e p => g.resolve e.1 = .ok p.1 ∧ p.2 = e.2) feeds placed)
    (hf : g.FeedsInputs feeds) (hfed : feeds.foldlM g.feed {} = .ok fed)
    (hrun : g.run feeds = .ok out) (hvalid : Valid st)
    (hst : ∀ v t d, g.Stored v → g.tensor v = .ok t → t.data = some d →
      m.contents? st v = some d) :
    ∃ start, placed.foldlM m.storeAt? st = some start ∧ (∃ final, RunsEach m.runs ks start final) ∧
      ∀ final, RunsEach m.runs ks start final →
        List.Forall₂ (fun v e => e.1 = v ∧ m.contents? final v = some e.2) g.outputs out := by
  have hunfed : ∀ v, v ∉ g.inputs → fed.get? v = none := fun v hv => Graph.get?_of_feeds hf hfed hv
  have hordered := Graph.ordered_topologicalOrder hops
  have hcomputes : ∀ o ∈ ops, g.Computes o := fun o ho =>
    Graph.output_of_mem_topologicalOrder hg hops ho
  obtain ⟨start, hpreset, hvalid', hstart⟩ := h.presets hplaced hf hvalid
    (fun v d hv hd => by
      rcases Graph.fetch_ok_iff.1 hd with hd | ⟨-, t, ht, hd⟩
      · cases hd
      · exact hst v t d hv ht hd) hfed
  -- The run has evaluated every operator.
  obtain ⟨fed', hfed', hout⟩ := (Graph.run_ok_iff hg hf).1 hrun
  obtain rfl := Except.ok.inj (hfed.symm.trans hfed')
  obtain ⟨values, hvalues⟩ : ∃ values, ops.foldlM g.runOp fed = .ok values := by
    rw [Graph.run_eq, Graph.valuesOf, hfed, hops] at hrun
    obtain ⟨values, hvalues, -⟩ := bind_ok_iff.1 hrun
    exact ⟨values, hvalues⟩
  have hcomputed := Graph.computed_of_foldlM hg hunfed hordered hcomputes hvalues
  have hsplit : g.topologicalOrder = .ok ([] ++ ops) := hops
  have hruns := h.runs hsplit hks
    (fun o ho n hn => (hcomputed.outputs o ho n hn).imp fun d hd => hd.2)
    (fun o ho => (hcomputes o ho).imp fun n hn => hn.choose_spec.1) hvalid'
    (fun v d hv hd => by
      rcases hv.present with hv | ⟨q, hq, -⟩
      · exact hstart v d hv (hv.fetch hg hd)
      · cases hq)
  refine ⟨start, hpreset, hruns.1, fun final hfinal => ?_⟩
  refine List.forall₂_iff_zip.2 ⟨hout.length_eq, fun {v e} hve => ?_⟩
  obtain ⟨rfl, he⟩ := (List.forall₂_iff_zip.1 hout).2 hve
  exact ⟨rfl, hruns.2 final hfinal e.1 e.2
    (Graph.heldAt_output hg hb hops (List.of_mem_zip hve).1) he⟩

end Machine

end TensorCompiler
