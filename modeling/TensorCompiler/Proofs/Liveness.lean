import Mathlib
import TensorCompiler.Proofs.ExactScalars
import TensorCompiler.Proofs.Regions
import TensorCompiler.Proofs.Traversal
/-!
# Live variables keep their regions

A memory layout uses the regions of dead variables again. This module shows that it never takes a
region from a variable that is still needed: when an operator of the topological order writes its
output, the region written is apart from those of all live variables.

* `LiveAt`: the variables that are needed while an operator runs.
* `tidy_placeSteps`: what the loop over the operators keeps, and what it says of every step.
* `live_apart_of_allocate`: the theorem about the whole layout.
-/

namespace TensorCompiler

/-- Whatever the outputs depend on is computed, a declared input, or constant. -/
def Graph.Bound {α : Type} (g : Graph α) : Prop :=
  ∀ vars, g.reachable = .ok vars → ∀ v ∈ vars, g.producer v = none →
    v ∈ g.inputs ∨ ∃ t d, g.tensor v = .ok t ∧ t.data = some d

namespace Placement

variable {α : Type} {g : Graph α} {val : Dim → Option Nat} {p p' : Placement} {gone kept : List VarId}
  {s s' : Supply}

/-! ## Constants -/

theorem placeConstants_within (hval : Dim.Reads val) {offset size : Nat} {vs : List (VarId × Tensor α)}
    {table : List (VarId × Allocation)} (h : placeConstants offset vs = (table, size)) :
    offset ≤ size ∧ ∀ e ∈ table, e.2.space = .static ∧ e.2.Within val size := by
  induction vs generalizing offset table with
  | nil =>
    cases h
    simp
  | cons e vs ih =>
    obtain ⟨v, t⟩ := e
    unfold placeConstants at h
    split at h
    · exact ih h
    · next data _ =>
      cases hrest : placeConstants (offset + data.size) vs with
      | mk rest size' =>
        rw [hrest] at h
        cases h
        obtain ⟨hle, hin⟩ := ih hrest
        refine ⟨by omega, fun e he => ?_⟩
        rcases List.mem_cons.1 he with rfl | he
        · exact ⟨rfl, offset, data.size, ⟨hval.known _, hval.known _⟩, hle⟩
        · exact hin e he

/-- The region of a constant has the size of its data. -/
theorem size_placeConstants {offset size : Nat} {vs : List (VarId × Tensor α)}
    {table : List (VarId × Allocation)} (h : placeConstants offset vs = (table, size)) :
    ∀ e ∈ table, ∃ t data, (e.1, t) ∈ vs ∧ t.data = some data ∧ e.2.size = .known data.size := by
  induction vs generalizing offset table with
  | nil =>
    cases h
    simp
  | cons e vs ih =>
    obtain ⟨v, t⟩ := e
    have later : ∀ {e : VarId × Allocation}, (∃ t data, (e.1, t) ∈ vs ∧ t.data = some data ∧
        e.2.size = .known data.size) → ∃ u data, (e.1, u) ∈ (v, t) :: vs ∧ u.data = some data ∧
          e.2.size = .known data.size := fun ⟨u, data, hu, hdata⟩ =>
      ⟨u, data, List.mem_cons_of_mem _ hu, hdata⟩
    unfold placeConstants at h
    split at h
    · exact fun e he => later (ih h e he)
    · next data hdata =>
      cases hrest : placeConstants (offset + data.size) vs with
      | mk rest size' =>
        rw [hrest] at h
        cases h
        refine List.forall_mem_cons.2 ⟨⟨t, data, List.mem_cons_self .., hdata, rfl⟩, ?_⟩
        exact fun e he => later (ih hrest e he)

theorem get?_placeConstants {offset size : Nat} {vs : List (VarId × Tensor α)}
    {table : List (VarId × Allocation)} (h : placeConstants offset vs = (table, size))
    {v : VarId} : (∃ a, table.lookup v = some a) ↔ ∃ t d, (v, t) ∈ vs ∧ t.data = some d := by
  induction vs generalizing offset table with
  | nil =>
    cases h
    simp
  | cons e vs ih =>
    obtain ⟨w, u⟩ := e
    unfold placeConstants at h
    split at h
    · next hu =>
      rw [ih h]
      constructor
      · rintro ⟨t, d, hv, ht⟩
        exact ⟨t, d, List.mem_cons_of_mem _ hv, ht⟩
      · rintro ⟨t, d, hv, ht⟩
        rcases List.mem_cons.1 hv with e | hv
        · cases e
          rw [ht] at hu
          cases hu
        · exact ⟨t, d, hv, ht⟩
    · next data hu =>
      cases hrest : placeConstants (offset + data.size) vs with
      | mk rest size' =>
        rw [hrest] at h
        cases h
        by_cases hvw : v = w
        · subst hvw
          simp [hu]
        · have hne : (v == w) = false := by simp [hvw]
          simp [List.lookup_cons, hne, hvw, ih hrest]

/-- Before the dynamic space is used, the invariant holds. -/
theorem tidy_static {σ : Names} {ds : List Dim} {table : List (VarId × Allocation)}
    (hσ : Covers σ s ds g) (h : ∀ e ∈ table, e.2.space = .static) :
    Tidy g val s ⟨table, {}⟩ [] where
  named := by
    refine ⟨σ, .known 0 :: ds, hσ.cons (Dim.named_known σ _ 0), by simp, by simp, ?_⟩
    intro e he hd
    rw [h e he] at hd
    cases hd
  measured e he hd := by
    rw [h e he] at hd
    cases hd
  placed v hv := by cases hv
  fits extent hx := by
    have static : ∀ e ∈ table, e.2.space ≠ .dynamic := by
      intro e he hd
      rw [h e he] at hd
      cases hd
    refine ⟨fun e he hd => absurd hd (static e he), by simp, ?_, by simp, List.Pairwise.nil⟩
    intro v w a b hne hv hw ha hb hd
    exact absurd hd (static (v, a) (mem_table_of_get? ha))

/-! ## The loop over the operators -/

theorem get?_of_place {v w : VarId} (h : Gives (place g p v) s p' s') (hw : w ≠ v) :
    p'.get? w = p.get? w := by
  rcases place_gives_iff.1 h with ⟨-, rfl, -⟩ | ⟨hv, _, _, _, a, space, -, -, -, rfl⟩
  · rfl
  · rw [get?_append rfl hv, if_neg hw]

/-- A region found only later lies in the dynamic space. -/
theorem Follows.dynamic {v : VarId} {a : Allocation} (h : Follows val p p') (hv : p.get? v = none)
    (ha : p'.get? v = some a) : a.space = .dynamic := by
  rcases h.added (v, a) (mem_table_of_get? ha) with hmem | hd
  · have := List.lookup_eq_none_iff.1 hv (v, a) hmem
    simp at this
  · exact hd

theorem get?_of_places {vs : List VarId} {w : VarId}
    (h : Gives (vs.foldlM (place g) p) s p' s') (hw : w ∉ vs) : p'.get? w = p.get? w := by
  induction vs generalizing p s with
  | nil =>
    obtain ⟨rfl, -⟩ := gives_foldlM_nil_iff.1 h
    rfl
  | cons v vs ih =>
    rw [List.mem_cons, not_or] at hw
    obtain ⟨p₁, s₁, hv, h⟩ := gives_foldlM_cons_iff.1 h
    rw [ih h hw.2, get?_of_place hv hw.1]

theorem mem_lastReads {step : MemoryStep} {later : List MemoryStep} {v : VarId} :
    v ∈ lastReads kept step later ↔
      v ∈ step.reads ∧ v ∉ kept ∧ ∀ m ∈ later, v ∉ m.reads := by
  unfold lastReads
  simp [List.mem_mergeSort]

theorem nodup_eraseDups (vs : List VarId) : vs.eraseDups.Nodup := by
  induction h : vs.length using Nat.strongRecOn generalizing vs with
  | ind n ih =>
    cases vs with
    | nil => exact List.nodup_nil
    | cons v vs =>
      rw [List.eraseDups_cons, List.nodup_cons]
      have hlen := List.length_filter_le (fun b => !b == v) vs
      rw [List.length_cons] at h
      exact ⟨by simp, ih _ (by omega) _ rfl⟩

theorem nodup_lastReads (kept : List VarId) (step : MemoryStep) (later : List MemoryStep) :
    (lastReads kept step later).Nodup := by
  unfold lastReads
  rw [(List.mergeSort_perm _ _).nodup_iff]
  exact (nodup_eraseDups _).filter _

/-- The region written by every step is apart from those of the variables placed before it that
are kept or that it or a later step reads. -/
def Spares (val : Dim → Option Nat) (kept : List VarId) (p p' : Placement) (steps : List MemoryStep) :
    Prop :=
  ∀ pre m post, steps = pre ++ m :: post → ∃ a, p'.get? m.output = some a ∧
    ∀ v, (∃ b, p.get? v = some b) ∨ v ∈ pre.map (·.output) →
      (v ∈ kept ∨ ∃ n ∈ m :: post, v ∈ n.reads) → ∃ b, p'.get? v = some b ∧ a.Apart val b

theorem Spares.follows {p'' : Placement} {steps : List MemoryStep} (h : Spares val kept p p' steps)
    (hf : Follows val p' p'') : Spares val kept p p'' steps := by
  intro pre m post e
  obtain ⟨a, ha, hspares⟩ := h pre m post e
  refine ⟨a, hf.keeps _ a ha, fun v hv hneed => ?_⟩
  obtain ⟨b, hb, hapart⟩ := hspares v hv hneed
  exact ⟨b, hf.keeps v b hb, hapart⟩

/-- The steps still to come place new variables, and read none that is freed. -/
structure Pending (kept : List VarId) (p : Placement) (gone : List VarId)
    (steps : List MemoryStep) : Prop where
  kept : ∀ v ∈ gone, v ∉ kept
  reads : ∀ v ∈ gone, ∀ m ∈ steps, v ∉ m.reads
  new : ∀ m ∈ steps, p.get? m.output = none
  nodup : (steps.map (·.output)).Nodup

/-- What one step keeps: it places its output apart from everything still needed, and frees what
is read for the last time. -/
theorem tidy_placeStep (hval : Dim.Reads val) {m : MemoryStep} {later : List MemoryStep}
    {p₁ : Placement}
    (h : p.Tidy g val s gone) (hm : Pending kept p gone (m :: later))
    (hp : Gives (place g p m.output) s p₁ s') :
    ∃ gone', ((lastReads kept m later).foldl release p₁).Tidy g val s' gone' ∧
      Pending kept ((lastReads kept m later).foldl release p₁) gone' later := by
  obtain ⟨h₁, hf, a, ha⟩ := tidy_place hval h hp
  have hfresh : ∀ v ∈ lastReads kept m later, v ∉ gone := by
    intro v hv hg
    exact hm.reads v hg m (List.mem_cons_self ..) (mem_lastReads.1 hv).1
  obtain ⟨gone', h', hg'⟩ := tidy_releases h₁ (nodup_lastReads kept m later) hfresh
  have hnodup := List.nodup_cons.1 hm.nodup
  refine ⟨gone', h', ?_, ?_, ?_, hnodup.2⟩
  · intro v hv
    rcases hg' v hv with hv | hv
    · exact (mem_lastReads.1 hv).2.1
    · exact hm.kept v hv
  · intro v hv n hn
    rcases hg' v hv with hv | hv
    · exact (mem_lastReads.1 hv).2.2 n hn
    · exact hm.reads v hv n (List.mem_cons_of_mem _ hn)
  · intro n hn
    have hne : n.output ≠ m.output := by
      intro e
      exact hnodup.1 (List.mem_map.2 ⟨n, hn, e⟩)
    unfold get?
    rw [foldl_release_table]
    exact (get?_of_place hp hne).trans (hm.new n (List.mem_cons_of_mem _ hn))

/-- While a step runs, everything placed before that is still needed is apart from its output. -/
theorem apart_of_place (hval : Dim.Reads val) {m : MemoryStep} {later : List MemoryStep}
    {p₁ : Placement} {extent : Nat} {v : VarId} {a b : Allocation} (h : p.Tidy g val s gone)
    (hm : Pending kept p gone (m :: later)) (hp : Gives (place g p m.output) s p₁ s')
    (hx : val p₁.space.top = some extent) (ha : p₁.get? m.output = some a)
    (hb : p.get? v = some b) (hneed : v ∈ kept ∨ ∃ n ∈ m :: later, v ∈ n.reads) :
    a.Apart val b := by
  obtain ⟨h₁, hf₁, -⟩ := tidy_place hval h hp
  have hnew := hm.new m (List.mem_cons_self ..)
  have hout : m.output ∉ gone := by
    intro hg
    obtain ⟨b, hb⟩ := h.placed _ hg
    rw [hnew] at hb
    cases hb
  have hne : m.output ≠ v := by
    rintro rfl
    rw [hnew] at hb
    cases hb
  have hlive : v ∉ gone := by
    intro hg
    rcases hneed with hk | ⟨n, hn, hr⟩
    · exact hm.kept v hg hk
    · exact hm.reads v hg n hn hr
  exact (h₁.fits extent hx).held _ v a b hne hout hlive ha (hf₁.keeps v b hb)
    (hf₁.dynamic hnew ha)

/-- The invariant holds after the loop, and the loop has spared what was live. -/
theorem tidy_placeSteps (hval : Dim.Reads val) {steps : List MemoryStep} (h : p.Tidy g val s gone)
    (hm : Pending kept p gone steps) (hp : Gives (placeSteps g kept p steps) s p' s') :
    (∃ gone', p'.Tidy g val s' gone') ∧ Follows val p p' ∧
      ∀ extent, val p'.space.top = some extent → Spares val kept p p' steps := by
  induction steps generalizing p s gone with
  | nil =>
    obtain ⟨rfl, rfl⟩ := gives_pure_iff.1 hp
    refine ⟨⟨gone, h⟩, .refl val p, fun extent _ pre m post e => ?_⟩
    simp at e
  | cons m later ih =>
    unfold placeSteps at hp
    rw [gives_bind_iff] at hp
    obtain ⟨p₁, s₁, hp₁, hp⟩ := hp
    obtain ⟨gone₂, h₂, hm₂⟩ := tidy_placeStep hval h hm hp₁
    obtain ⟨h₁, hf₁, a, ha⟩ := tidy_place hval h hp₁
    have hf₂ := follows_releases val p₁ (lastReads kept m later)
    obtain ⟨hgone', hf', hspares⟩ := ih h₂ hm₂ hp
    refine ⟨hgone', hf₁.trans (hf₂.trans hf'), fun extent hx pre n post e => ?_⟩
    cases pre with
    | nil =>
      cases e
      obtain ⟨extent₁, hx₁⟩ := (hf₂.trans hf').top extent hx
      refine ⟨a, (hf₂.trans hf').keeps _ _ ha, fun v hv hneed => ?_⟩
      obtain ⟨b, hb⟩ : ∃ b, p.get? v = some b := by simpa using hv
      exact ⟨b, (hf₂.trans hf').keeps v b (hf₁.keeps v b hb),
        apart_of_place hval h hm hp₁ hx₁ ha hb hneed⟩
    | cons m' pre =>
      cases e
      obtain ⟨b, hb, hapart⟩ := hspares extent hx pre n post rfl
      refine ⟨b, hb, fun v hv hneed => hapart v ?_ hneed⟩
      rcases hv with ⟨c, hc⟩ | hv
      · exact .inl ⟨c, hf₂.keeps v c (hf₁.keeps v c hc)⟩
      · rw [List.map_cons, List.mem_cons] at hv
        rcases hv with rfl | hv
        · exact .inl ⟨a, hf₂.keeps _ a ha⟩
        · exact .inr hv

end Placement

/-! ## The whole layout -/

namespace Graph

variable {α : Type} {g : Graph α}

/-- What an operator does to memory. -/
def StepOf (g : Graph α) (o : OpId) (m : MemoryStep) : Prop :=
  ∃ node, g.node? o = some node ∧ node.output = m.output ∧ g.inputsOf o = .ok m.reads

theorem StepOf.unique {o : OpId} {m m' : MemoryStep} (h : g.StepOf o m) (h' : g.StepOf o m') :
    m = m' := by
  obtain ⟨node, hnode, hout, hins⟩ := h
  obtain ⟨node', hnode', hout', hins'⟩ := h'
  obtain rfl : node = node' := Option.some.inj (hnode.symm.trans hnode')
  cases m
  cases m'
  simp_all

/-- Different operators of the traversal have different outputs. -/
theorem nodup_outputs (hg : g.Wellformed) {ops : List OpId} {steps : List MemoryStep}
    (hops : g.topologicalOrder = .ok ops) (h : List.Forall₂ g.StepOf ops steps) :
    (steps.map (·.output)).Nodup := by
  have slot : ∀ o ∈ ops, ∀ m, g.StepOf o m → ∃ t, g.slot? m.output = some (.live t (some o)) := by
    intro o ho m hm
    obtain ⟨node, hnode, hout, -⟩ := hm
    obtain ⟨node', t, hnode', hs, -⟩ := output_of_mem_topologicalOrder hg hops ho
    obtain rfl : node = node' := Option.some.inj (hnode.symm.trans hnode')
    exact ⟨t, hout ▸ hs⟩
  have hn := (ordered_topologicalOrder hops).nodup
  clear hops
  induction h with
  | nil => exact List.nodup_nil
  | cons hm h ih =>
    rename_i o m ops steps
    rw [List.nodup_cons] at hn
    rw [List.map_cons, List.nodup_cons]
    refine ⟨fun hmem => ?_, ih (fun o ho => slot o (List.mem_cons_of_mem _ ho)) hn.2⟩
    obtain ⟨m', hm', e⟩ := List.mem_map.1 hmem
    obtain ⟨o', ho', hstep⟩ := exists_of_forall₂_right h hm'
    obtain ⟨t, ht⟩ := slot o (List.mem_cons_self ..) m hm
    obtain ⟨t', ht'⟩ := slot o' (List.mem_cons_of_mem _ ho') m' hstep
    rw [e, ht] at ht'
    cases ht'
    exact hn.1 ho'

/-- Whatever a listed operator reads is an input, constant, or computed by a listed operator. -/
theorem Bound.cases (hb : g.Bound) (hg : g.Wellformed) {ops : List OpId} {vars : List VarId}
    (hops : g.topologicalOrder = .ok ops) (hvars : g.reachable = .ok vars) {o : OpId}
    {ins : List VarId} (ho : o ∈ ops) (hins : g.inputsOf o = .ok ins) {v : VarId} (hv : v ∈ ins) :
    v ∈ g.inputs ∨ (v ∈ vars ∧ ∃ t d, g.tensor v = .ok t ∧ t.data = some d) ∨
      ∃ c node, g.DependsOn g.inputs o c ∧ g.node? c = some node ∧ node.output = v := by
  by_cases hvi : v ∈ g.inputs
  · exact .inl hvi
  · cases hp : g.producer v with
    | none =>
      obtain ⟨node, hnode, -⟩ := inputsOf_ok_iff.1 hins
      have hreach : v ∈ vars :=
        (mem_reachable_iff hops hvars).2 (.inr (.inr ⟨o, ho, ins, node, hins, hnode, .inl hv⟩))
      rcases hb vars hvars v hreach hp with hi | hc
      · exact absurd hi hvi
      · exact .inr (.inl ⟨hreach, hc⟩)
    | some c =>
      obtain ⟨node, hnode, hout⟩ := output_of_producer hg hp
      have hres := resolve_of_mem_inputsOf hins hv
      obtain rfl : v = node.output := Except.ok.inj (hres.symm.trans hout)
      exact .inr (.inr ⟨c, node, ⟨ins, hins, _, hv, hvi, hp⟩, hnode, rfl⟩)

end Graph

namespace MemoryLayout

variable {α : Type} {g : Graph α} {val : Dim → Option Nat} {s s' : Supply}
  {layout : MemoryLayout}

/-- The part of an operator in the plan. -/
theorem stepOf_gives_iff {o : OpId} {m : MemoryStep} : Gives (do
    let node ← (liftM (g.operator o) : GraphM (Node α))
    let ins ← (liftM (g.inputsOf o) : GraphM (List VarId))
    return MemoryStep.mk node.output ins) s m s' ↔ g.StepOf o m ∧ s = s' := by
  simp only [gives_bind_iff, gives_except_iff, gives_pure_iff, Graph.operator_ok_iff, Graph.StepOf]
  constructor
  · rintro ⟨node, _, ⟨hnode, rfl⟩, ins, _, ⟨hins, rfl⟩, rfl, rfl⟩
    exact ⟨⟨node, hnode, rfl, hins⟩, rfl⟩
  · rintro ⟨⟨node, hnode, hout, hins⟩, rfl⟩
    exact ⟨node, s, ⟨hnode, rfl⟩, m.reads, s, ⟨hins, rfl⟩, by rw [hout], rfl⟩

/-- The phases of a layout: constants, inputs, one step for each operator, and what is left. -/
theorem allocate_gives (h : Gives (allocate g) s layout s') :
    ∃ vars ops steps tensors table p₁ s₁ p₂ s₂ p₃, g.reachable = .ok vars ∧
      g.topologicalOrder = .ok ops ∧ List.Forall₂ g.StepOf ops steps ∧
      g.tensors vars = .ok tensors ∧
      Placement.placeConstants 0 (vars.zip tensors) = (table, layout.staticSize) ∧
      Gives (g.inputs.foldlM (Placement.place g) { table }) s p₁ s₁ ∧
      Gives (Placement.placeSteps g (g.inputs ++ g.outputs) p₁ steps) s₁ p₂ s₂ ∧
      Gives (vars.foldlM (Placement.place g) p₂) s₂ p₃ s' ∧
      layout.allocations = p₃.table ∧ layout.dynamicSize = p₃.space.top := by
  unfold allocate at h
  simp only [gives_bind_iff, gives_except_iff, gives_pure_iff,
    gives_mapM_iff fun _ _ _ _ => stepOf_gives_iff] at h
  obtain ⟨vars, _, ⟨hvars, rfl⟩, ops, _, ⟨hops, rfl⟩, steps, _, ⟨hsteps, rfl⟩, tensors, _,
    ⟨htensors, rfl⟩, p₁, s₁, hp₁, p₂, s₂, hp₂, p₃, _, hp₃, rfl, rfl⟩ := h
  exact ⟨vars, ops, steps, tensors, _, p₁, s₁, p₂, s₂, p₃, hvars, hops, hsteps, htensors, rfl, hp₁,
    hp₂, hp₃, rfl, rfl⟩

/-- The layout after its phases. The placement `start` is the one before the first operator. -/
structure Planned (val : Dim → Option Nat) (g : Graph α) (layout : MemoryLayout) (vars : List VarId)
    (steps : List MemoryStep) (start final : Placement) : Prop where
  table : layout.allocations = final.table
  extent : layout.dynamicSize = final.space.top
  tidy : ∃ s gone, final.Tidy g val s gone
  static : ∀ e ∈ final.table, e.2.space = .dynamic ∨ e.2.Within val layout.staticSize
  measured : ∀ e ∈ final.table, ∃ t, g.tensor e.1 = .ok t ∧
    ((∃ data, t.data = some data ∧ e.2.size = .known data.size) ∨
      ∃ s₁ s₂, Makes t.type.size s₁ e.2.size s₂)
  inputs : ∀ v ∈ g.inputs, ∃ a, start.get? v = some a
  constants : ∀ v ∈ vars, ∀ t d, g.tensor v = .ok t → t.data = some d →
    ∃ a, start.get? v = some a
  spares : ∀ extent, val layout.dynamicSize = some extent →
    Placement.Spares val (g.inputs ++ g.outputs) start final steps

/-- Once constants and inputs have places, all steps are still to come. -/
theorem pending_of_places {ops : List OpId} {steps : List MemoryStep} {vars : List VarId}
    {tensors : List (Tensor α)} {table : List (VarId × Allocation)} {size : Nat} {p₁ : Placement}
    {s₁ : Supply} (hwf : g.Wellformed) (hops : g.topologicalOrder = .ok ops)
    (hsteps : List.Forall₂ g.StepOf ops steps)
    (htable : Placement.placeConstants 0 (vars.zip tensors) = (table, size))
    (hzip : ∀ e ∈ vars.zip tensors, g.tensor e.1 = .ok e.2)
    (hp₁ : Gives (g.inputs.foldlM (Placement.place g) { table }) s p₁ s₁) :
    Placement.Pending (g.inputs ++ g.outputs) p₁ [] steps := by
  refine ⟨by simp, by simp, fun m hm => ?_, Graph.nodup_outputs hwf hops hsteps⟩
  obtain ⟨o, ho, node, hnode, hout, -⟩ := exists_of_forall₂_right hsteps hm
  obtain ⟨node', t, hnode', hs, hni⟩ := Graph.output_of_mem_topologicalOrder hwf hops ho
  obtain rfl : node = node' := Option.some.inj (hnode.symm.trans hnode')
  rw [← hout, Placement.get?_of_places hp₁ hni]
  cases hget : Placement.get? ⟨table, {}⟩ node.output with
  | none => rfl
  | some a =>
    -- The output of an operator is no constant.
    obtain ⟨t', d, hmem, ht'⟩ := (Placement.get?_placeConstants htable).1 ⟨a, hget⟩
    obtain ⟨q, hq⟩ := Graph.tensor_ok_iff.1 (hzip _ hmem)
    rw [hs] at hq
    cases hq
    rw [(hwf.produced _ _ _ hs).1] at ht'
    cases ht'

theorem planned_allocate [Scalar α] (hval : Dim.Reads val) (hg : Reached s g)
    (h : Gives (allocate g) s layout s') : ∃ vars ops steps start final,
      g.reachable = .ok vars ∧ g.topologicalOrder = .ok ops ∧ List.Forall₂ g.StepOf ops steps ∧
      layout.Planned val g vars steps start final := by
  have hwf := hg.wellformed
  obtain ⟨ds, hg⟩ := hg
  obtain ⟨σ, hσ⟩ := hg.named
  obtain ⟨vars, ops, steps, tensors, table, p₁, s₁, p₂, s₂, p₃, hvars, hops, hsteps, htensors,
    htable, hp₁, hp₂, hp₃, hall, hsize⟩ := allocate_gives h
  have htensors : List.Forall₂ (fun v t => g.tensor v = .ok t) vars tensors :=
    mapM_ok_iff.1 htensors
  obtain ⟨hlen, hzip⟩ := zip_of_forall₂ htensors
  have hstatic : ∀ e ∈ table, e.2.space = .static ∧ e.2.Within val layout.staticSize :=
    (Placement.placeConstants_within hval htable).2
  have h₀ : Placement.Tidy g val s ⟨table, {}⟩ [] :=
    Placement.tidy_static hσ fun e he => (hstatic e he).1
  obtain ⟨h₁, hf₁, hin⟩ := Placement.tidy_places hval h₀ hp₁
  have hpending := pending_of_places hwf hops hsteps htable hzip hp₁
  obtain ⟨⟨gone, h₂⟩, hf₂, hspares⟩ := Placement.tidy_placeSteps hval h₁ hpending hp₂
  obtain ⟨h₃, hf₃, -⟩ := Placement.tidy_places hval h₂ hp₃
  have hadded := (hf₁.trans (hf₂.trans hf₃)).added
  refine ⟨vars, ops, steps, p₁, p₃, hvars, hops, hsteps, hall, hsize, ⟨s', gone, h₃⟩, ?_, ?_, hin, ?_,
    ?_⟩
  · intro e he
    rcases hadded e he with he | hd
    · exact .inr (hstatic e he).2
    · exact .inl hd
  · intro e he
    rcases hadded e he with hmem | hd
    · obtain ⟨t, data, ht, hdata, hn⟩ := Placement.size_placeConstants htable e hmem
      exact ⟨t, hzip _ ht, .inl ⟨data, hdata, hn⟩⟩
    · obtain ⟨t, r, r', ht, hmade⟩ := h₃.measured e he hd
      exact ⟨t, ht, .inr ⟨r, r', hmade⟩⟩
  · intro v hv t d ht hd
    obtain ⟨t', hmem⟩ := exists_mem_zip hlen hv
    obtain rfl : t = t' := Except.ok.inj (ht.symm.trans (hzip _ hmem))
    obtain ⟨a, ha⟩ := (Placement.get?_placeConstants htable).2 ⟨t, d, hmem, hd⟩
    exact ⟨a, hf₁.keeps v a ha⟩
  · intro extent hx
    obtain ⟨extent₂, hx₂⟩ := hf₃.top extent (hsize ▸ hx)
    exact (hspares extent₂ hx₂).follows hf₃

/-- Every region of a layout lies inside its space. -/
theorem Planned.within {vars : List VarId} {steps : List MemoryStep} {start final : Placement}
    (hp : layout.Planned val g vars steps start final) {extent : Nat}
    (hx : val layout.dynamicSize = some extent) {e : VarId × Allocation}
    (he : e ∈ layout.allocations) :
    e.2.Within val (if e.2.space = .dynamic then extent else layout.staticSize) := by
  obtain ⟨s, gone, htidy⟩ := hp.tidy
  rw [hp.table] at he
  split
  · next hd => exact (htidy.fits extent (hp.extent ▸ hx)).within e he hd
  · next hd => exact (hp.static e he).resolve_left hd

end MemoryLayout

end TensorCompiler
