import Mathlib
import TensorCompiler.Proofs.Layouts
import TensorCompiler.Proofs.Liveness
import TensorCompiler.Proofs.ValueSizes
/-!
# Parts of a graph

A part of a graph has the same arena between other inputs and outputs, so its traversal may stop
earlier or go further back. Wherever it is cut, it computes the values of the whole graph: a
variable that the outputs of the part depend on is fed, or holds the constant that the whole graph
read too, or is computed from such variables by the same operator.

* `Graph.valuesOf`: all values of a run, where `run` keeps those of the outputs only.
* `Graph.bound_of_induced`: the leaves of a part are inputs or constants.
* `Graph.HasValue.of_part`: the values of the whole are the values of the part.
* `Graph.run_induced`: the run of a part on values of the whole gives values of the whole.
-/

namespace TensorCompiler.Graph

variable {α : Type} [Scalar α]

/-! ## The values of a run -/

/-- All values of a run on these feeds. -/
def valuesOf (g : Graph α) (feeds : List (VarId × Array α)) : Except GraphError (Values α) := do
  let fed ← feeds.foldlM g.feed {}
  (← g.topologicalOrder).foldlM g.runOp fed

/-- The value of the variable that a handle stands for: fed, computed or constant. -/
def valueAt (g : Graph α) (values : Values α) (v : VarId) : Except GraphError (Array α) := do
  g.fetch values (← g.resolve v)

/-- All feeds go to declared inputs that hold no constant data. -/
def FeedsOpenInputs (g : Graph α) (feeds : List (VarId × Array α)) : Prop :=
  ∀ e ∈ feeds, ∃ v ∈ g.inputs, ∃ t, g.resolve e.1 = .ok v ∧ g.tensor v = .ok t ∧ t.data = none

variable {g : Graph α} {fed : Values α} {feeds : List (VarId × Array α)} {values : Values α}

/-- A run reads the outputs among all values. -/
theorem run_eq : g.run feeds = (g.valuesOf feeds).bind fun values =>
    g.outputs.mapM fun v => do return (v, ← g.fetch values v) := by
  unfold run valuesOf
  cases feeds.foldlM g.feed {} with
  | error e => rfl
  | ok fed => cases g.topologicalOrder <;> rfl

omit [Scalar α] in
theorem FeedsOpenInputs.feedsInputs (h : g.FeedsOpenInputs feeds) : g.FeedsInputs feeds := by
  intro e he
  obtain ⟨v, hv, _, hr, -⟩ := h e he
  exact ⟨v, hv, hr⟩

omit [Scalar α] in
/-- Constants are not fed. -/
theorem FeedsOpenInputs.get?_constant (hf : g.FeedsOpenInputs feeds)
    (h : feeds.foldlM g.feed {} = .ok fed) {v : VarId} {t : Tensor α} {d : Array α}
    (ht : g.tensor v = .ok t) (hd : t.data = some d) : fed.get? v = none := by
  refine foldlM_ok_induction (P := fun values => values.get? v = none) h rfl ?_
  intro values e values' he hnone hfeed
  obtain ⟨w, -, hw, -, -, rfl⟩ := feed_ok_iff.1 hfeed
  obtain ⟨u, -, t', hu, ht', hopen⟩ := hf e he
  obtain rfl := Except.ok.inj (hw.symm.trans hu)
  have hne : v ≠ w := by
    rintro rfl
    obtain rfl := Except.ok.inj (ht.symm.trans ht')
    rw [hd] at hopen
    cases hopen
  rw [Values.get?_set, if_neg hne, hnone]

/-- Whatever a run fetches is the value of a variable. -/
theorem hasValue_of_valuesOf (hg : g.Wellformed) (hf : g.FeedsInputs feeds)
    (h : g.valuesOf feeds = .ok values) : ∃ fed, feeds.foldlM g.feed {} = .ok fed ∧
      ∀ v d, g.resolve v = .ok v → g.fetch values v = .ok d → g.HasValue fed v d := by
  simp only [valuesOf, bind_ok_iff] at h
  obtain ⟨fed, hfeed, ops, hops, hvalues⟩ := h
  have hfed := fun v => get?_of_feeds hf hfeed (v := v)
  have hcomp : ∀ o ∈ ops, g.Computes o := fun o ho => output_of_mem_topologicalOrder hg hops ho
  have hc := computed_of_foldlM hg hfed (ordered_topologicalOrder hops) hcomp hvalues
  refine ⟨fed, hfeed, fun v d hv hd => ?_⟩
  refine (fetch_iff_hasValue hg hfed hc hcomp hv fun hvi o hp => ?_).1 hd
  -- The output of an operator that did not run has no value, and holds no constant.
  by_contra ho
  obtain ⟨w, t, hw, hslot⟩ := producer_some_iff.1 hp
  obtain rfl := Except.ok.inj (hv.symm.trans hw)
  have hnone : values.get? v = none := by
    refine hc.others v hvi fun p hp' node hn e => ?_
    obtain ⟨node', u, hn', hslot', -⟩ := hcomp p hp'
    obtain rfl := Option.some.inj (hn.symm.trans hn')
    rw [e, hslot] at hslot'
    cases hslot'
    exact ho hp'
  rcases fetch_ok_iff.1 hd with hd | ⟨-, u, hu, hd⟩
  · rw [hnone] at hd
    cases hd
  · obtain rfl := Except.ok.inj ((tensor_ok_iff.2 ⟨_, hslot⟩).symm.trans hu)
    rw [(hg.produced v t o hslot).1] at hd
    cases hd

/-! ## Parts -/

section

variable {part : Graph α} {ins outs : List VarId}

omit [Scalar α]

/-- A part has the arena of the whole. -/
theorem sameArena_induced (h : g.induced ins outs = .ok part) :
    SameArena g part ∧ part.node? = g.node? ∧ part.tensor = g.tensor := by
  obtain ⟨ins', outs', -, -, rfl⟩ := induced_ok h
  exact ⟨⟨rfl, rfl⟩, rfl, rfl⟩

/-- A part lies between the variables that its ends stand for. -/
theorem ends_of_induced (h : g.induced ins outs = .ok part) :
    List.Forall₂ (fun v w => g.resolve v = .ok w) ins part.inputs ∧
      List.Forall₂ (fun v w => g.resolve v = .ok w) outs part.outputs := by
  obtain ⟨k, -⟩ := sameArena_induced h
  obtain ⟨ins', outs', hins, houts, rfl⟩ := induced_ok h
  have resolved : ∀ {vs ws : List VarId}, g.resolveEach vs = .ok ws → g.resolveAll ws = ws :=
    fun h => resolveAll_of_forall₂ (List.forall₂_same.2 (resolve_of_mem_resolveEach h))
  have hinputs := (k.resolveAll ins').trans (resolved hins)
  have houtputs := (k.resolveAll outs').trans (resolved houts)
  rw [resolveEach, mapM_ok_iff] at hins houts
  rw [inputs, outputs, hinputs, houtputs]
  exact ⟨hins, houts⟩

theorem reachable_of_induced (h : g.induced ins outs = .ok part) :
    ∃ vars, part.reachable = .ok vars := by
  unfold induced at h
  simp only [bind_ok_iff, pure_ok_iff] at h
  obtain ⟨_, _, _, _, vars, hvars, -, -, rfl⟩ := h
  exact ⟨vars, hvars⟩

/-- The leaves of an induced part are inputs or constants. -/
theorem bound_of_induced (h : g.induced ins outs = .ok part) : part.Bound := by
  obtain ⟨hends, -⟩ := ends_of_induced h
  unfold induced at h
  simp only [bind_ok_iff, pure_ok_iff] at h
  obtain ⟨ins', hins, outs', houts, vars, hvars, ⟨⟩, hleaves, rfl⟩ := h
  rw [resolveEach, mapM_ok_iff] at hins
  have hinputs := eq_of_forall₂ (hins.imp fun _ _ h _ h' => Except.ok.inj (h.symm.trans h')) hends
  intro vars' hvars' v hv hp
  obtain rfl := Except.ok.inj (hvars.symm.trans hvars')
  obtain ⟨t, ht, hleaf⟩ := bind_ok_iff.1 (forM_ok_iff.1 hleaves v hv)
  rw [hp] at hleaf
  by_cases hvi : v ∈ ins'
  · exact .inl (hinputs ▸ hvi)
  · cases hd : t.data with
    | some d => exact .inr ⟨t, d, ht, hd⟩
    | none => simp [hvi, Tensor.isConstant, hd] at hleaf

/-- An operator that computes a reachable variable that is no input is listed. -/
theorem mem_topologicalOrder_of_reachable {ops : List OpId} {vars : List VarId} (hg : g.Wellformed)
    (hops : g.topologicalOrder = .ok ops) (hvars : g.reachable = .ok vars) {v : VarId}
    (hv : v ∈ vars) (hvi : v ∉ g.inputs) {o : OpId} (hp : g.producer v = some o) : o ∈ ops := by
  rcases (mem_reachable_iff hops hvars).1 hv with h | h | ⟨c, hc, ins, node, hins, hnode, h | rfl⟩
  · exact absurd h hvi
  · exact mem_topologicalOrder_of_root hops (mem_rootOps.2 ⟨v, h, hvi, hp⟩)
  · exact (ordered_topologicalOrder hops).closed hc ⟨ins, hins, v, h, hvi, hp⟩
  · obtain ⟨node', t, hn', hslot, -⟩ := output_of_mem_topologicalOrder hg hops hc
    obtain rfl := Option.some.inj (hnode.symm.trans hn')
    have hp' := producer_some_iff.2 ⟨_, t, resolve_of_live hslot, hslot⟩
    exact Option.some.inj (hp'.symm.trans hp) ▸ hc

end

/-- Between its cuts, a part computes the values of the whole. -/
theorem HasValue.of_part {part : Graph α} {vars ins outs : List VarId} (hg : g.Wellformed)
    (hinputs : ∀ v ∈ g.inputs, g.producer v = none) (hfeeds : g.FeedsOpenInputs feeds)
    (hfeed : feeds.foldlM g.feed {} = .ok fed) (hpart : g.induced ins outs = .ok part)
    (hvars : part.reachable = .ok vars) {fed' : Values α}
    (hfed : ∀ v ∈ part.inputs, ∀ d, g.HasValue fed v d → fed'.get? v = some d)
    (hunfed : ∀ v, v ∉ part.inputs → fed'.get? v = none) {v : VarId} {d : Array α}
    (h : g.HasValue fed v d) (hv : v ∈ vars) : part.HasValue fed' v d := by
  obtain ⟨k, hnode, htensor⟩ := sameArena_induced hpart
  obtain ⟨ops, hops⟩ := topologicalOrder_of_reachable hvars
  have hcut : ∀ {v d}, g.HasValue fed v d → v ∈ part.inputs → part.HasValue fed' v d :=
    fun h hvi => .leaf ((k.resolve _).trans h.resolve) (.inl hvi)
      (fetch_ok_iff.2 (.inl (hfed _ hvi _ h)))
  induction h with
  | @leaf v d hr hl hf =>
    by_cases hvi : v ∈ part.inputs
    · exact hcut (.leaf hr hl hf) hvi
    -- A leaf behind the cut is a constant, which was not fed to the whole graph.
    have hp : part.producer v = none := (k.producer v).trans (hl.elim (hinputs v) id)
    rcases bound_of_induced hpart vars hvars v hv hp with h | ⟨t, d', ht, hd⟩
    · exact absurd h hvi
    · rcases fetch_ok_iff.1 hf with h | ⟨-, t', ht', hd'⟩
      · rw [hfeeds.get?_constant hfeed (htensor ▸ ht) hd] at h
        cases h
      · exact .leaf ((k.resolve v).trans hr) (.inr hp)
          (fetch_ok_iff.2 (.inr ⟨hunfed v hvi, t', htensor ▸ ht', hd'⟩))
  | @computed v o node reads ts t ds d hvi' hp hn hreads hts ht hlen hds he ih =>
    by_cases hvi : v ∈ part.inputs
    · exact hcut (.computed hvi' hp hn hreads hts ht hlen hds he) hvi
    rw [← k.producer] at hp
    rw [← hnode] at hn
    rw [← k.inputsOf] at hreads
    rw [Graph.tensors, ← htensor, ← Graph.tensors] at hts
    have ho := mem_topologicalOrder_of_reachable (wellformed_induced hg hpart) hops hvars hv hvi hp
    refine .computed hvi hp hn hreads hts (htensor ▸ ht) hlen (fun p hp => ?_) he
    exact ih p hp (operands_reachable hops hvars ho hn hreads _
      (List.mem_cons_of_mem _ (List.of_mem_zip hp).1))

/-! ## Running a part -/

section

omit [Scalar α]

/-- Data of the right sizes can be fed. -/
theorem exists_fed (h : ∀ e ∈ feeds, ∃ v t, g.resolve e.1 = .ok v ∧ g.tensor v = .ok t ∧
    t.type.concreteSize = .ok e.2.size) (start : Values α) :
    ∃ fed, feeds.foldlM g.feed start = .ok fed := by
  induction feeds generalizing start with
  | nil => exact ⟨start, rfl⟩
  | cons e feeds ih =>
    obtain ⟨⟨v, t, hv, ht, hsize⟩, h⟩ := List.forall_mem_cons.1 h
    obtain ⟨fed, hfed⟩ := ih h (start.set v e.2)
    exact ⟨fed, bind_ok_iff.2 ⟨_, feed_ok_iff.2 ⟨v, t, hv, ht, hsize, rfl⟩, hfed⟩⟩

/-- What a variable is fed is the data of one of its entries. -/
theorem get?_of_fed (h : feeds.foldlM g.feed {} = .ok fed) {e : VarId × Array α} (he : e ∈ feeds)
    {v : VarId} (hv : g.resolve e.1 = .ok v) :
    ∃ e' ∈ feeds, g.resolve e'.1 = .ok v ∧ fed.get? v = some e'.2 := by
  refine foldlM_ok_processed (P := fun done values => ∀ e ∈ done, g.resolve e.1 = .ok v →
    ∃ e' ∈ feeds, g.resolve e'.1 = .ok v ∧ values.get? v = some e'.2) h
    (fun e he => by cases he) ?_ e he hv
  intro done a rest values values' split hdone hfeed e he hv
  obtain ⟨w, t, hw, -, -, rfl⟩ := feed_ok_iff.1 hfeed
  by_cases hvw : v = w
  · exact ⟨a, split ▸ List.mem_append_right _ (List.mem_cons_self ..), hvw ▸ hw,
      by rw [Values.get?_set, if_pos hvw]⟩
  · rw [Values.get?_set, if_neg hvw]
    rcases List.mem_append.1 he with he | he
    · exact hdone e he hv
    · rw [List.mem_singleton.1 he] at hv
      exact absurd (Except.ok.inj (hv.symm.trans hw)) hvw

end

/-- An induced part computes the same values as the whole: fed with values that its inputs had in a
run of the whole graph, it runs, and gives its outputs the values that they had. -/
theorem run_induced {s : Supply} (hg : Reached s g) (hinputs : ∀ v ∈ g.inputs, g.producer v = none)
    (hfeeds : g.FeedsOpenInputs feeds) {out : List (VarId × Array α)}
    (hrun : g.run feeds = .ok out) : ∃ values, g.valuesOf feeds = .ok values ∧
      ∀ ins outs part, (∀ e ∈ ins ++ outs, g.valueAt values e.1 = .ok e.2) →
        g.induced (ins.map (·.1)) (outs.map (·.1)) = .ok part →
        ∃ result, part.run ins = .ok result ∧
          List.Forall₂ (fun e r => g.resolve e.1 = .ok r.1 ∧ r.2 = e.2) outs result := by
  have hwf := hg.wellformed
  rw [run_eq] at hrun
  obtain ⟨values, hvalues, -⟩ := bind_ok_iff.1 hrun
  obtain ⟨fed, hfeed, hfetch⟩ := hasValue_of_valuesOf hwf hfeeds.feedsInputs hvalues
  refine ⟨values, hvalues, fun ins outs part hends hpart => ?_⟩
  obtain ⟨k, -, htensor⟩ := sameArena_induced hpart
  obtain ⟨hins, houts⟩ := ends_of_induced hpart
  rw [List.forall₂_map_left_iff] at hins houts
  obtain ⟨hvins, hvouts⟩ : (∀ e ∈ ins, ∃ v, g.resolve e.1 = .ok v ∧ g.HasValue fed v e.2) ∧
      ∀ e ∈ outs, ∃ v, g.resolve e.1 = .ok v ∧ g.HasValue fed v e.2 := by
    refine List.forall_mem_append.1 fun e he => ?_
    obtain ⟨v, hv, hd⟩ := bind_ok_iff.1 (hends e he)
    exact ⟨v, hv, hfetch v _ (resolve_resolve hv) hd⟩
  -- The values have the right sizes, so the part can be fed with them.
  obtain ⟨fed', hfeed'⟩ : ∃ fed', ins.foldlM part.feed {} = .ok fed' := by
    refine exists_fed (fun e he => ?_) {}
    obtain ⟨v, hv, hvalue⟩ := hvins e he
    obtain ⟨t, ht, hsize⟩ := hvalue.concreteSize hg hfeed
    exact ⟨v, t, (k.resolve _).trans hv, htensor ▸ ht, hsize⟩
  have hfeeds' : part.FeedsInputs ins := by
    intro e he
    obtain ⟨w, hw, hr⟩ := exists_of_forall₂_left hins he
    exact ⟨w, hw, (k.resolve _).trans hr⟩
  have hfed : ∀ v ∈ part.inputs, ∀ d, g.HasValue fed v d → fed'.get? v = some d := by
    intro v hv d hvalue
    obtain ⟨e, he, hr⟩ := exists_of_forall₂_right hins hv
    obtain ⟨e', he', hr', hget⟩ := get?_of_fed hfeed' he ((k.resolve _).trans hr)
    obtain ⟨w, hw, hvalue'⟩ := hvins e' he'
    obtain rfl := Except.ok.inj (hw.symm.trans ((k.resolve _).symm.trans hr'))
    rw [hget, hvalue'.unique hvalue]
  obtain ⟨vars, hvars⟩ := reachable_of_induced hpart
  obtain ⟨ops, hops⟩ := topologicalOrder_of_reachable hvars
  obtain ⟨result, hresult⟩ := exists_forall₂ (R := fun (e r : VarId × Array α) =>
    g.resolve e.1 = .ok r.1 ∧ r.2 = e.2 ∧ g.HasValue fed r.1 r.2) fun e he => by
      obtain ⟨v, hv, hvalue⟩ := hvouts e he
      exact ⟨(v, e.2), hv, rfl, hvalue⟩
  refine ⟨result, ?_, hresult.imp fun e r h => ⟨h.1, h.2.1⟩⟩
  refine (run_ok_iff (wellformed_induced hwf hpart) hfeeds').2 ⟨fed', hfeed', ?_⟩
  have hall := (List.forall₂_and_left _ _).2 ⟨fun v hv => hv, forall₂_comp houts.flip hresult⟩
  refine hall.imp ?_
  rintro v r ⟨hv, e, hr, hr', -, hvalue⟩
  obtain rfl := Except.ok.inj (hr'.symm.trans hr)
  exact ⟨rfl, hvalue.of_part hwf hinputs hfeeds hfeed hpart hvars hfed
    (fun w hw => get?_of_feeds hfeeds' hfeed' hw)
    ((mem_reachable_iff hops hvars).2 (.inr (.inl hv)))⟩

/-! ## A part with its input downstream -/

/-- The type of a single number. -/
def numberType : TensorType := ⟨[], ⟨[], List.nodup_nil⟩, List.length_nil⟩

/-- The square of an input plus three. -/
def squaredSum : Graph ℚ where
  slots := #[.live { type := numberType, marks := [.input] } none,
    .live { type := numberType, data := some #[3] } none,
    .live { type := numberType } (some ⟨0⟩),
    .live { type := numberType, marks := [.output] } (some ⟨1⟩)]
  nodes := #[some ⟨.pointwise .add, [⟨0⟩, ⟨1⟩], ⟨2⟩⟩, some ⟨.pointwise .mul, [⟨2⟩, ⟨2⟩], ⟨3⟩⟩]
  declaredInputs := [⟨0⟩]
  declaredOutputs := [⟨3⟩]

/-- The graph as far as its first places and operators, without an output. -/
def squaredSumPart (places operators : Nat) : Graph ℚ where
  slots := (squaredSum.slots.set! 3 (.live { type := numberType } (some ⟨1⟩))).extract 0 places
  nodes := squaredSum.nodes.extract 0 operators
  declaredInputs := [⟨0⟩]

theorem reached_squaredSum : Reached {} squaredSum := by
  have made : ∀ data, data = none ∨ data = some #[3] →
      (⟨numberType, [], data⟩ : Tensor ℚ).MadeFrom [] {} {} := by
    rintro data (rfl | rfl)
    · exact ⟨(fun _ hd => by cases hd), rfl, fun _ hx => by cases hx⟩
    · exact ⟨(fun _ hd => by cases hd), rfl, fun _ hx => by cases hx; rfl⟩
  have sum : Gives ((squaredSumPart 2 0).addOp (.pointwise .add) [⟨0⟩, ⟨1⟩]) {}
      (squaredSumPart 3 1, ⟨2⟩) {} := by
    unfold Gives
    cbv
  have square : Gives ((squaredSumPart 3 1).addOp (.pointwise .mul) [⟨2⟩, ⟨2⟩]) {}
      (squaredSumPart 4 2, ⟨3⟩) {} := by
    unfold Gives
    cbv
  have leaves : Session false {} [] (squaredSumPart 2 0) :=
    .addVariable (.addInput (.empty {}) (made none (.inl rfl))) (made _ (.inr rfl))
  exact ⟨[], .markOutput (v := ⟨3⟩) (.addOp (.addOp leaves sum) square) (by cbv)⟩

/-- Fed with the sum, which lies behind the input that is fed too, the part gives the square, the
constant, and the sum again. -/
theorem squaredSum_run_induced : ∃ part,
    squaredSum.induced [⟨0⟩, ⟨2⟩] [⟨3⟩, ⟨1⟩, ⟨2⟩] = .ok part ∧
      ∃ result, part.run [(⟨0⟩, #[5]), (⟨2⟩, #[8])] = .ok result ∧
        result.map (·.2) = [#[64], #[3], #[8]] := by
  have hrun : squaredSum.run [(⟨0⟩, #[5])] = .ok [(⟨3⟩, #[64])] := by cbv
  have hinputs : squaredSum.inputs = [⟨0⟩] := by cbv
  have hfeeds : squaredSum.FeedsOpenInputs [(⟨0⟩, #[5])] := by
    intro e he
    obtain rfl := List.mem_singleton.1 he
    exact ⟨⟨0⟩, by simp [hinputs], _, rfl, rfl, rfl⟩
  have hproducer : ∀ v ∈ squaredSum.inputs, squaredSum.producer v = none := by
    intro v hv
    obtain rfl := List.mem_singleton.1 (hinputs ▸ hv)
    rfl
  have hcomputed : squaredSum.valuesOf [(⟨0⟩, #[5])] =
      .ok ⟨[(⟨3⟩, #[64]), (⟨2⟩, #[8]), (⟨0⟩, #[5])]⟩ := by cbv
  have hinduced : ∃ part, squaredSum.induced [⟨0⟩, ⟨2⟩] [⟨3⟩, ⟨1⟩, ⟨2⟩] = .ok part := by
    refine ⟨{ squaredSum with
      declaredInputs := [⟨0⟩, ⟨2⟩], declaredOutputs := [⟨3⟩, ⟨1⟩, ⟨2⟩] }, ?_⟩
    cbv
  obtain ⟨values, hvalues, hruns⟩ := run_induced reached_squaredSum hproducer hfeeds hrun
  obtain rfl := Except.ok.inj (hcomputed.symm.trans hvalues)
  obtain ⟨part, hpart⟩ := hinduced
  obtain ⟨result, hresult, hall⟩ := hruns [(⟨0⟩, #[5]), (⟨2⟩, #[8])]
    [(⟨3⟩, #[64]), (⟨1⟩, #[3]), (⟨2⟩, #[8])] part
    (by simpa using ⟨rfl, rfl, rfl, rfl, rfl⟩) hpart
  refine ⟨part, hpart, result, hresult, ?_⟩
  exact eq_map_of_forall₂ (f := (·.2)) (List.forall₂_map_right_iff.2 (hall.imp fun e r h => h.2))

end TensorCompiler.Graph
