import TensorCompiler.Proofs.AxisMarks
/-!
# The marks of inputs and outputs

That a variable is fed or read back by the runtime is kept twice: as a mark of its tensor, and as a
handle in a list of the graph that is resolved when the list is read. Every edit keeps the two in
step, but for the choice of a part of a graph, which takes other lists and leaves the marks as they
are. In any case a variable carries the mark exactly if a handle stands for it that was once
declared by a call.

* `Graph.MarkedBy`: the variables with a mark are those that a list of handles stands for.
* `Edit.Turns.markedBy`: an edit adds to the list what it declares.
* `Edit.Turns.declared`: so does the graph, if the edit chooses no part of it.
* `History.runtime_marks`: the marks after a history.
-/

namespace TensorCompiler

namespace Graph

variable {α : Type} {g h : Graph α} {m : Mark} {handles handles' : List VarId} {t : Tensor α}
  {p : Option OpId}

/-- Exactly the variables that the handles stand for carry the mark. -/
structure MarkedBy (g : Graph α) (m : Mark) (handles : List VarId) : Prop where
  within : ∀ u ∈ handles, u.index < g.slots.size
  marked : ∀ v t p, g.slot? v = some (.live t p) → (m ∈ t.marks ↔ v ∈ g.resolveAll handles)

theorem MarkedBy.congr (k : g.MarkedBy m handles) (hin : ∀ u ∈ handles', u.index < g.slots.size)
    (heq : ∀ v, v ∈ g.resolveAll handles' ↔ v ∈ g.resolveAll handles) : g.MarkedBy m handles' :=
  ⟨hin, fun v t p hv => (k.marked v t p hv).trans (heq v).symm⟩

theorem markedBy_empty (m : Mark) : ({} : Graph α).MarkedBy m [] :=
  ⟨List.forall_mem_nil _, fun _ _ _ hv => absurd (slot?_lt hv) (Nat.not_lt_zero _)⟩

theorem MarkedBy.append_nil (k : g.MarkedBy m handles) : g.MarkedBy m (handles ++ []) := by
  rwa [List.append_nil]

theorem mem_resolveAll_append {v : VarId} : v ∈ g.resolveAll (handles ++ handles') ↔
    v ∈ g.resolveAll handles ∨ v ∈ g.resolveAll handles' := by
  simp only [mem_resolveAll, List.mem_append, or_and_right, exists_or]

theorem mem_resolveAll_singleton {u v w : VarId} (hw : g.resolve u = .ok w) :
    v ∈ g.resolveAll [u] ↔ v = w := by
  rw [mem_resolveAll]
  constructor
  · rintro ⟨u', hu', hv⟩
    obtain rfl := List.mem_singleton.1 hu'
    exact Except.ok.inj (hv.symm.trans hw)
  · rintro rfl
    exact ⟨u, List.mem_singleton_self u, hw⟩

theorem resolveAll_congr (heq : ∀ u ∈ handles, h.resolve u = g.resolve u) :
    h.resolveAll handles = g.resolveAll handles :=
  List.filterMap_congr fun u hu => by rw [heq u hu]

/-! ## What handles stand for after an edit -/

theorem resolve_eq_of_keeps (hg : g.Wellformed) (hh : h.Wellformed)
    (keeps : ∀ v x, g.slot? v = some x → ∃ y, h.slot? v = some y ∧ y.next? = x.next?) {u : VarId}
    (hu : u.index < g.slots.size) : h.resolve u = g.resolve u := by
  obtain ⟨w, hw⟩ := resolve_ok_of_lt hg hu
  rw [hw, resolve_of_keeps hh keeps hw]

section

variable {v w a b : VarId} {x y : Tensor α} {q : Option OpId} {marks : List Mark}

theorem resolveAll_push (hg : g.Wellformed) (hh : h.Wellformed)
    (hs : h.slots = g.slots.push (.live t p)) (hin : ∀ u ∈ handles, u.index < g.slots.size) :
    h.resolveAll handles = g.resolveAll handles :=
  resolveAll_congr fun u hu =>
    resolve_eq_of_keeps hg hh (fun _ x hv => ⟨x, slot?_push_old hs hv, rfl⟩) (hin u hu)

theorem resolveAll_detach {o : OpId} {node : Node α} (hg : g.Wellformed)
    (ho : g.node? o = some node) (hin : ∀ u ∈ handles, u.index < g.slots.size) :
    (g.detach o node.output).resolveAll handles = g.resolveAll handles := by
  refine resolveAll_congr fun u hu => ?_
  obtain ⟨w, hw⟩ := resolve_ok_of_lt hg (hin u hu)
  rw [hw, resolve_detach hg ho hw]

/-- What stood for the redirected variable stands for the one in its place. -/
theorem mem_resolveAll_redirect (hg : g.Wellformed) (hab : a ≠ b)
    (ha : g.slot? a = some (.live x p)) (hb : g.slot? b = some (.live y q))
    (hin : ∀ u ∈ handles, u.index < g.slots.size) :
    v ∈ (g.redirect a b marks).resolveAll handles ↔
      v = b ∧ a ∈ g.resolveAll handles ∨ v ≠ a ∧ v ∈ g.resolveAll handles := by
  simp only [mem_resolveAll]
  constructor
  · rintro ⟨u, hu, hv⟩
    obtain ⟨w, hw⟩ := resolve_ok_of_lt hg (hin u hu)
    have hv' := Except.ok.inj ((resolve_redirect hg hab ha hb hw).symm.trans hv)
    split at hv'
    · next hwa => exact .inl ⟨hv'.symm, u, hu, hwa ▸ hw⟩
    · next hwa => exact .inr ⟨hv' ▸ hwa, u, hu, hv' ▸ hw⟩
  · rintro (⟨rfl, u, hu, hua⟩ | ⟨hva, u, hu, hv⟩)
    · exact ⟨u, hu, (resolve_redirect hg hab ha hb hua).trans (by rw [if_pos rfl])⟩
    · exact ⟨u, hu, (resolve_redirect hg hab ha hb hv).trans (by rw [if_neg hva])⟩

/-! ## Marks after an edit -/

/-- A new tensor without the mark. -/
theorem MarkedBy.push (k : g.MarkedBy m handles) (hg : g.Wellformed) (hh : h.Wellformed)
    (hs : h.slots = g.slots.push (.live t p)) (hm : m ∉ t.marks) : h.MarkedBy m handles := by
  refine ⟨fun u hu => ?_, fun v t' q hv => ?_⟩
  · rw [hs, Array.size_push]
    exact Nat.lt_succ_of_lt (k.within u hu)
  · rw [resolveAll_push hg hh hs k.within]
    rcases slot?_of_push hs hv with hv | ⟨rfl, ⟨⟩⟩
    · exact k.marked v t' q hv
    · refine iff_of_false hm fun hmem => ?_
      obtain ⟨w, -, hw⟩ := mem_resolveAll.1 hmem
      exact absurd (lt_of_resolve_eq hw) (Nat.lt_irrefl _)

/-- A new tensor with the mark, for which its handle is added. -/
theorem MarkedBy.push_marked (k : g.MarkedBy m handles) (hg : g.Wellformed) (hh : h.Wellformed)
    (hs : h.slots = g.slots.push (.live t p)) (hm : m ∈ t.marks) :
    h.MarkedBy m (handles ++ [⟨g.slots.size⟩]) := by
  have hnew : h.resolve ⟨g.slots.size⟩ = .ok ⟨g.slots.size⟩ :=
    resolve_of_live (slot?_push_new hs)
  refine ⟨fun u hu => ?_, fun v t' q hv => ?_⟩
  · rw [hs, Array.size_push]
    rcases List.mem_append.1 hu with hu | hu
    · exact Nat.lt_succ_of_lt (k.within u hu)
    · exact List.mem_singleton.1 hu ▸ Nat.lt_succ_self _
  · rw [mem_resolveAll_append, resolveAll_push hg hh hs k.within, mem_resolveAll_singleton hnew]
    rcases slot?_of_push hs hv with hv | ⟨rfl, ⟨⟩⟩
    · have hne : v ≠ ⟨g.slots.size⟩ := by
        rintro rfl
        exact absurd (slot?_lt hv) (Nat.lt_irrefl _)
      rw [k.marked v t' q hv, or_iff_left hne]
    · exact iff_of_true hm (.inr rfl)

theorem MarkedBy.same (k : g.MarkedBy m handles) (hs : SameArena g h)
    (hmarks : ∀ v t p, h.slot? v = some (.live t p) →
      ∃ t', g.slot? v = some (.live t' p) ∧ (m ∈ t.marks ↔ m ∈ t'.marks)) :
    h.MarkedBy m handles := by
  refine ⟨fun u hu => hs.size ▸ k.within u hu, fun v t p hv => ?_⟩
  obtain ⟨t', hv', hm⟩ := hmarks v t p hv
  rw [hm, k.marked v t' p hv', hs.resolveAll]

theorem MarkedBy.renamed [Scalar α] {f : Axis → Axis} {c : Bool} (k : g.MarkedBy m handles)
    (hf : g.renameAxes f = (h, .ok c)) : h.MarkedBy m handles := by
  have hsame : SameArena g h := by
    rw [← show (g.renameAxes f).1 = h from congrArg Prod.fst hf]
    exact sameArena_renameAxes g f
  refine k.same hsame fun v t p hv => ?_
  obtain ⟨t', hv', hmarks, -⟩ := slot?_of_renamed hf hv
  exact ⟨t', hv', by rw [hmarks]⟩

/-- A declared output gets its mark, for which the handle is added. -/
theorem MarkedBy.markOutput (k : g.MarkedBy .output handles) (hm : g.markOutput v = .ok h) :
    h.MarkedBy .output (handles ++ [v]) := by
  have hsame := sameArena_markOutput hm
  obtain ⟨w, hw, -⟩ := markOutput_ok hm
  have hw' : h.resolve v = .ok w := (hsame.resolve v).trans hw
  refine ⟨fun u hu => ?_, fun u t p hu => ?_⟩
  · rw [hsame.size]
    rcases List.mem_append.1 hu with hu | hu
    · exact k.within u hu
    · exact List.mem_singleton.1 hu ▸ lt_of_resolve hw
  · obtain ⟨t', hu', rfl⟩ := slot?_of_marked hm hw hu
    rw [mem_resolveAll_append, hsame.resolveAll, mem_resolveAll_singleton hw',
      ← k.marked u t' p hu']
    split
    · next huw => simp [Tensor.mark, huw]
    · next huw => simp [huw]

theorem MarkedBy.detach {o : OpId} {node : Node α} (k : g.MarkedBy m handles) (hg : g.Wellformed)
    (ho : g.node? o = some node) : (g.detach o node.output).MarkedBy m handles := by
  refine ⟨fun u hu => size_detach g o _ ▸ k.within u hu, fun v t p hv => ?_⟩
  rw [resolveAll_detach hg ho k.within]
  rcases slot?_of_detach hv with ⟨-, hv⟩ | ⟨-, -, q, hv⟩
  · exact k.marked v t p hv
  · exact k.marked v t q hv

/-- The variable in the place of another one carries the marks of both. -/
theorem markedBy_redirect (hg : g.Wellformed) (hm : m.isRuntime = true) (hab : a ≠ b)
    (ha : g.slot? a = some (.live x p)) (hb : g.slot? b = some (.live y q))
    (hin : ∀ u ∈ handles, u.index < g.slots.size)
    (hothers : ∀ v t p, v ≠ b → g.slot? v = some (.live t p) →
      (m ∈ t.marks ↔ v ∈ g.resolveAll handles))
    (hboth : m ∈ x.marks ∨ m ∈ y.marks ↔ m ∈ x.marks ∨ b ∈ g.resolveAll handles) :
    (g.redirect a b x.marks).MarkedBy m handles := by
  refine ⟨fun u hu => size_redirect g a b _ ▸ hin u hu, fun v t r hv => ?_⟩
  obtain ⟨hva, t', hv', rfl⟩ := slot?_of_redirected hab ha hb hv
  rw [mem_resolveAll_redirect hg hab ha hb hin, ← hothers a x p hab ha]
  split
  · next hvb =>
    subst hvb
    obtain ⟨rfl, -⟩ := Slot.live.inj (Option.some.inj (hb.symm.trans hv'))
    simpa [hm, hva] using hboth
  · next hvb =>
    rw [hothers v t' r hvb hv']
    simp [hvb, hva]

theorem MarkedBy.replaceVariable {old new : VarId} (k : g.MarkedBy m handles) (hg : g.Wellformed)
    (hm : m.isRuntime = true) (hr : g.replaceVariable old new = .ok h) : h.MarkedBy m handles := by
  obtain ⟨a, b, -, -, ⟨-, rfl⟩ | ⟨hab, x, y, hx, hy, -, -, rfl⟩⟩ := replaceVariable_ok_iff.1 hr
  · exact k
  · obtain ⟨p, hx⟩ := tensor_ok_iff.1 hx
    obtain ⟨q, hy⟩ := tensor_ok_iff.1 hy
    exact markedBy_redirect hg hm hab hx hy k.within (fun v t p _ => k.marked v t p)
      (by rw [k.marked b y q hy])

/-- A constant that has just been added takes the place of what an operator computed. -/
theorem redirect_of_fold {o : OpId} {node : Node α} {x constant : Tensor α}
    (hx : g.tensor node.output = .ok x)
    (hr : ((g.detach o node.output).addVariable constant).1.replaceVariable node.output
      ⟨(g.detach o node.output).slots.size⟩ = .ok h) :
    ∃ i new, i = ((g.detach o node.output).addVariable constant).1 ∧
      new = ⟨(g.detach o node.output).slots.size⟩ ∧ node.output ≠ new ∧
      i.slot? node.output = some (.live x none) ∧ i.slot? new = some (.live constant none) ∧
      h = i.redirect node.output new x.marks := by
  obtain ⟨p, hx⟩ := tensor_ok_iff.1 hx
  have hx : (g.detach o node.output).slot? node.output = some (.live x none) := by
    rw [slot?_detach, if_pos rfl, hx]
    rfl
  have hlt := slot?_lt hx
  generalize g.detach o node.output = d at hx hlt hr ⊢
  have hold : (d.addVariable constant).1.slot? node.output = some (.live x none) :=
    slot?_push_old rfl hx
  have hnew : (d.addVariable constant).1.slot? ⟨d.slots.size⟩ = some (.live constant none) :=
    slot?_push_new rfl
  have hne : node.output ≠ ⟨d.slots.size⟩ := fun e =>
    absurd hlt (by rw [e]; exact Nat.lt_irrefl _)
  refine ⟨_, _, rfl, rfl, hne, hold, hnew, ?_⟩
  obtain ⟨a, b, ha, hb, hr⟩ := replaceVariable_ok_iff.1 hr
  obtain rfl := Except.ok.inj ((resolve_of_live hold).symm.trans ha)
  obtain rfl := Except.ok.inj ((resolve_of_live hnew).symm.trans hb)
  obtain ⟨e, -⟩ | ⟨-, x', -, hx', -, -, -, rfl⟩ := hr
  · exact absurd e hne
  · rw [Except.ok.inj (hx'.symm.trans (tensor_ok_iff.2 ⟨_, hold⟩))]

/-- A constant carries the marks of what it takes the place of. -/
theorem MarkedBy.fold {o : OpId} {node : Node α} {x constant : Tensor α} {data : Array α}
    (k : g.MarkedBy m handles) (hg : g.Wellformed) (hm : m.isRuntime = true)
    (ho : g.node? o = some node) (hx : g.tensor node.output = .ok x)
    (hfold : x.fold data = .ok constant)
    (hr : ((g.detach o node.output).addVariable constant).1.replaceVariable node.output
      ⟨(g.detach o node.output).slots.size⟩ = .ok h) : h.MarkedBy m handles := by
  obtain ⟨i, new, hi, hnew, hne, hold, hconstant, rfl⟩ := redirect_of_fold hx hr
  have hd := wellformed_detach hg ho
  have hwi : i.Wellformed := hi ▸ wellformed_addVariable hd constant
  have hs : i.slots = (g.detach o node.output).slots.push (.live constant none) := by rw [hi]; rfl
  have k := k.detach hg ho
  have hresolve := resolveAll_push hd hwi hs k.within
  refine markedBy_redirect hwi hm hne hold hconstant (fun u hu => ?_) (fun v t p hv ht => ?_) ?_
  · rw [hs, Array.size_push]
    exact Nat.lt_succ_of_lt (k.within u hu)
  · rw [hresolve]
    rcases slot?_of_push hs ht with ht | ⟨hv', -⟩
    · exact k.marked v t p ht
    · exact absurd (hv'.trans hnew.symm) hv
  · -- The constant inherits its marks, and no handle of the list stands for it yet.
    have hinherits : m ∈ constant.marks → m ∈ x.marks := fun hmark => by
      simpa [Tensor.marks_of_fold hfold, hm] using hmark
    have hfresh : new ∉ i.resolveAll handles := fun hmem => by
      rw [hresolve, hnew] at hmem
      obtain ⟨w, -, hw⟩ := mem_resolveAll.1 hmem
      exact absurd (lt_of_resolve_eq hw) (Nat.lt_irrefl _)
    rw [or_iff_left hfresh, or_iff_left_of_imp hinherits]

end

/-! ## Declared handles -/

/-- The handles that the graph has declared as those that carry the mark. -/
def declared (g : Graph α) : Mark → List VarId
  | .input => g.declaredInputs
  | .output => g.declaredOutputs
  | .tensorwise _ => []

theorem Wellformed.declared (hg : g.Wellformed) :
    ∀ u ∈ g.declared m, u.index < g.slots.size := by
  cases m with
  | input => exact hg.declaredInputs
  | output => exact hg.declaredOutputs
  | tensorwise a => exact List.forall_mem_nil _

theorem declared_renameAxes [Scalar α] (g : Graph α) (f : Axis → Axis) (m : Mark) :
    (g.renameAxes f).1.declared m = g.declared m := by
  cases m with
  | input => exact g.renameAxes_declaredInputs f
  | output => exact g.renameAxes_declaredOutputs f
  | tensorwise a => rfl

theorem declared_replaceVariable {old new : VarId} (hr : g.replaceVariable old new = .ok h)
    (m : Mark) : h.declared m = g.declared m := by
  obtain ⟨a, b, -, -, ⟨-, rfl⟩ | ⟨-, x, y, -, -, -, -, rfl⟩⟩ := replaceVariable_ok_iff.1 hr
  · rfl
  · cases m <;> rfl

/-- A handle is declared as an output by the variable it stands for, unless this is one already. -/
theorem declared_markOutput {v w : VarId} (hmark : g.markOutput v = .ok h)
    (hw : g.resolve v = .ok w) :
    (∀ u, u ∈ h.declaredOutputs ↔ u ∈ g.declaredOutputs ∨ u = w) ∧
      h.declaredInputs = g.declaredInputs := by
  unfold markOutput at hmark
  obtain ⟨w', hw', hmark⟩ := bind_ok_iff.1 hmark
  obtain rfl := Except.ok.inj (hw.symm.trans hw')
  dsimp only at hmark
  split at hmark
  · next hmem =>
    obtain rfl := pure_ok_iff.1 hmark
    exact ⟨fun u => ⟨.inl, fun hu => hu.elim id fun e => e ▸ hmem⟩, rfl⟩
  · obtain rfl := pure_ok_iff.1 hmark
    refine ⟨fun u => ?_, rfl⟩
    rw [List.mem_append, List.mem_singleton]
    rfl

end Graph

/-! ## Marks after a history -/

namespace Edit

variable {α : Type}

/-- The handle that the edit declares as one that carries the mark. -/
def declares (m : Mark) : Edit α → List VarId
  | addInput _ v => if m = .input then [v] else []
  | markOutput v => if m = .output then [v] else []
  | _ => []

end Edit

section

variable {α : Type} [Scalar α] {g h : Graph α} {e : Edit α} {es : List (Edit α)} {m : Mark}
  {handles : List VarId} {v : VarId} {t : Tensor α}

theorem Edit.Turns.markedBy (hturn : e.Turns g h) (hg : g.Wellformed) (hm : m.isRuntime = true)
    (hadded : ∀ t, e.added? = some t → m ∉ t.marks) (k : g.MarkedBy m handles) :
    h.MarkedBy m (handles ++ e.declares m) := by
  have hh := hturn.wellformed hg
  cases e with
  | addVariable t =>
    obtain rfl : (g.addVariable t).1 = h := hturn
    exact (k.push hg hh rfl (hadded t rfl)).append_nil
  | addInput t v =>
    obtain ⟨rfl, rfl⟩ := Prod.mk.inj hturn
    have hs : (g.addInput t).1.slots = g.slots.push (.live (t.mark .input) none) := rfl
    by_cases hinput : m = .input
    · rw [Edit.declares, if_pos hinput]
      exact k.push_marked hg hh hs (by simp [Tensor.mark, hinput])
    · rw [Edit.declares, if_neg hinput, List.append_nil]
      exact k.push hg hh hs (by simp [Tensor.mark, hinput, hadded t rfl])
  | markOutput v =>
    by_cases houtput : m = .output
    · subst houtput
      rw [Edit.declares, if_pos rfl]
      exact k.markOutput hturn
    · rw [Edit.declares, if_neg houtput, List.append_nil]
      obtain ⟨w, hw, -⟩ := Graph.markOutput_ok hturn
      refine k.same (Graph.sameArena_markOutput hturn) fun u t p hu => ?_
      obtain ⟨t', hu', rfl⟩ := Graph.slot?_of_marked hturn hw hu
      refine ⟨t', hu', ?_⟩
      split
      · simp [Tensor.mark, houtput]
      · rfl
  | addOp op ins =>
    obtain ⟨w, s, s', hop⟩ := hturn
    obtain ⟨ws, ts, t, -, -, hinfer, rfl, -⟩ := Graph.addOp_gives_iff.1 hop
    obtain ⟨type, -, rfl⟩ := Graph.inferTensor_gives_iff.1 hinfer
    refine (k.push hg hh rfl fun hmem => ?_).append_nil
    obtain ⟨a, -, rfl⟩ := List.mem_map.1 hmem
    cases hm
  | removeOperator o =>
    obtain ⟨node, hr⟩ := hturn
    obtain ⟨ho, rfl⟩ := Graph.removeOperator_ok_iff.1 hr
    exact (k.detach hg ho).append_nil
  | replaceVariable old new =>
    exact (k.replaceVariable hg hm hturn).append_nil
  | renameAxes f =>
    obtain ⟨b, hf⟩ := hturn
    exact (k.renamed hf).append_nil
  | induced ins outs =>
    obtain ⟨ins', outs', -, -, rfl⟩ := Graph.induced_ok hturn
    have hsame : g.SameArena { g with declaredInputs := ins', declaredOutputs := outs' } :=
      ⟨rfl, rfl⟩
    exact (k.same hsame fun v t p hv => ⟨t, hv, Iff.rfl⟩).append_nil
  | unifyAxes classes =>
    obtain ⟨-, b, hf⟩ := hturn
    exact (k.renamed hf).append_nil
  | fold o constant =>
    obtain ⟨node, x, data, ho, hx, hfold, hr⟩ := hturn
    exact (k.fold hg hm ho hx hfold hr).append_nil

/-- What the declared handles stand for after an edit. -/
theorem Edit.Turns.declared (hturn : e.Turns g h) (hpart : ∀ ins outs, e ≠ .induced ins outs) :
    v ∈ h.resolveAll (h.declared m) ↔ v ∈ h.resolveAll (g.declared m ++ e.declares m) := by
  have same : h.declared m = g.declared m ++ e.declares m →
      (v ∈ h.resolveAll (h.declared m) ↔ v ∈ h.resolveAll (g.declared m ++ e.declares m)) :=
    fun hsame => by rw [hsame]
  cases e with
  | addVariable t =>
    obtain rfl : (g.addVariable t).1 = h := hturn
    exact same (List.append_nil _).symm
  | addInput t v =>
    obtain ⟨rfl, rfl⟩ := Prod.mk.inj hturn
    refine same ?_
    cases m with
    | input => rfl
    | output => exact (List.append_nil _).symm
    | tensorwise a => rfl
  | markOutput u =>
    obtain ⟨w, hw, -⟩ := Graph.markOutput_ok hturn
    obtain ⟨houtputs, hinputs⟩ := Graph.declared_markOutput hturn hw
    cases m with
    | input => exact same (hinputs.trans (List.append_nil _).symm)
    | tensorwise a => exact same rfl
    | output =>
      have hu : h.resolve u = .ok w := ((Graph.sameArena_markOutput hturn).resolve u).trans hw
      have hself : h.resolve w = .ok w := Graph.resolve_resolve hu
      show v ∈ h.resolveAll h.declaredOutputs ↔ v ∈ h.resolveAll (g.declaredOutputs ++ [u])
      rw [Graph.mem_resolveAll_append, Graph.mem_resolveAll_singleton hu,
        ← Graph.mem_resolveAll_singleton hself, ← Graph.mem_resolveAll_append]
      simp only [Graph.mem_resolveAll, houtputs, List.mem_append, List.mem_singleton]
  | addOp op ins =>
    obtain ⟨w, s, s', hop⟩ := hturn
    obtain ⟨ws, ts, t, -, -, -, rfl, -⟩ := Graph.addOp_gives_iff.1 hop
    exact same (List.append_nil _).symm
  | removeOperator o =>
    obtain ⟨node, hr⟩ := hturn
    obtain ⟨-, rfl⟩ := Graph.removeOperator_ok_iff.1 hr
    exact same (List.append_nil _).symm
  | replaceVariable old new =>
    exact same ((Graph.declared_replaceVariable hturn m).trans (List.append_nil _).symm)
  | renameAxes f =>
    obtain ⟨b, hf⟩ := hturn
    obtain rfl : (g.renameAxes f).1 = h := congrArg Prod.fst hf
    exact same ((g.declared_renameAxes f m).trans (List.append_nil _).symm)
  | induced ins outs => exact absurd rfl (hpart ins outs)
  | unifyAxes classes =>
    obtain ⟨-, b, hf⟩ := hturn
    obtain rfl : (g.renameAxes classes).1 = h := congrArg Prod.fst hf
    exact same ((g.declared_renameAxes classes m).trans (List.append_nil _).symm)
  | fold o constant =>
    obtain ⟨node, x, data, -, -, -, hr⟩ := hturn
    exact same ((Graph.declared_replaceVariable hr m).trans (List.append_nil _).symm)

/-- The handles that calls have declared, and as long as no part of the graph has been chosen those
that the graph has declared, account for its marks. -/
theorem Trace.markedBy (k : Trace {} es g) (hm : m.isRuntime = true)
    (hadded : ∀ t ∈ es.filterMap Edit.added?, m ∉ t.marks) :
    g.MarkedBy m (es.flatMap (Edit.declares m)) ∧
      ((∀ ins outs, .induced ins outs ∉ es) → g.MarkedBy m (g.declared m)) := by
  generalize hstart : ({} : Graph α) = start at k
  induction k with
  | refl =>
    subst hstart
    refine ⟨Graph.markedBy_empty m, fun _ => ?_⟩
    have hnone : ({} : Graph α).declared m = [] := by cases m <;> rfl
    rw [hnone]
    exact Graph.markedBy_empty m
  | @step _ _ es e k hturn ih =>
    rw [List.filterMap_append, List.forall_mem_append] at hadded
    have hnew : ∀ t, e.added? = some t → m ∉ t.marks := fun t ht => hadded.2 t (by simp [ht])
    have hg := k.wellformed (hstart ▸ Graph.wellformed_empty)
    obtain ⟨hcalls, hlists⟩ := ih hadded.1
    rw [List.flatMap_append, List.flatMap_singleton]
    refine ⟨hturn.markedBy hg hm hnew hcalls, fun hpart => ?_⟩
    have hk := hturn.markedBy hg hm hnew
      (hlists fun ins outs hmem => hpart ins outs (List.mem_append_left _ hmem))
    refine hk.congr (hturn.wellformed hg).declared fun v => hturn.declared fun ins outs he => ?_
    exact hpart ins outs (he ▸ List.mem_append_right _ (List.mem_singleton_self _))

/-- The marks of a graph with a history, if no variable has been added with one. A variable carries
a mark exactly if a handle stands for it that a call has declared to be fed, or to be read back. As
long as no part of the graph has been chosen, it does so exactly if it is an input, or an output. -/
theorem History.runtime_marks (k : History es g)
    (hadded : ∀ t ∈ es.filterMap Edit.added?, .input ∉ t.marks ∧ .output ∉ t.marks)
    (ht : g.tensor v = .ok t) :
    ((.input ∈ t.marks ↔ v ∈ g.resolveAll (es.flatMap (Edit.declares .input))) ∧
      (.output ∈ t.marks ↔ v ∈ g.resolveAll (es.flatMap (Edit.declares .output)))) ∧
    ((∀ ins outs, .induced ins outs ∉ es) →
      (.input ∈ t.marks ↔ v ∈ g.inputs) ∧ (.output ∈ t.marks ↔ v ∈ g.outputs)) := by
  obtain ⟨p, hv⟩ := Graph.tensor_ok_iff.1 ht
  have hin : ∀ t ∈ es.filterMap Edit.added?, .input ∉ t.marks := fun t ht => (hadded t ht).1
  have hout : ∀ t ∈ es.filterMap Edit.added?, .output ∉ t.marks := fun t ht => (hadded t ht).2
  refine ⟨⟨?_, ?_⟩, fun hpart => ⟨?_, ?_⟩⟩
  · exact (k.trace.markedBy rfl hin).1.marked v t p hv
  · exact (k.trace.markedBy rfl hout).1.marked v t p hv
  · exact ((k.trace.markedBy rfl hin).2 hpart).marked v t p hv
  · exact ((k.trace.markedBy rfl hout).2 hpart).marked v t p hv

end

/-- An input, its double and the double of that, which may carry a mark, between these inputs and
outputs. -/
def doubled (marks : List Mark) (inputs outputs : List VarId) : Graph ℚ where
  slots := #[.live { type := single .channel, marks := [.input] } none,
    .live { type := single .channel, marks := [.tensorwise .channel] } (some ⟨0⟩),
    .live { type := single .channel, marks := .tensorwise .channel :: marks } (some ⟨1⟩)]
  nodes := #[some ⟨.pointwise (.affine 2 0), [⟨0⟩], ⟨1⟩⟩,
    some ⟨.pointwise (.affine 2 0), [⟨1⟩], ⟨2⟩⟩]
  declaredInputs := inputs
  declaredOutputs := outputs

/-- How a client doubles an input twice. -/
def doubling : List (Edit ℚ) :=
  [.addInput { type := single .channel } ⟨0⟩, .addOp (.pointwise (.affine 2 0)) [⟨0⟩],
    .addOp (.pointwise (.affine 2 0)) [⟨1⟩], .markOutput ⟨2⟩]

theorem history_doubled : History doubling (doubled [.output] [⟨0⟩] [⟨2⟩]) := by
  let once : Graph ℚ :=
    { slots := #[.live { type := single .channel, marks := [.input] } none,
        .live { type := single .channel, marks := [.tensorwise .channel] } (some ⟨0⟩)]
      nodes := #[some ⟨.pointwise (.affine 2 0), [⟨0⟩], ⟨1⟩⟩]
      declaredInputs := [⟨0⟩] }
  have input : History ([] ++ [.addInput { type := single .channel } ⟨0⟩])
      (({} : Graph ℚ).addInput { type := single .channel }).1 :=
    .call .empty trivial rfl
  have first : Gives ((({} : Graph ℚ).addInput { type := single .channel }).1.addOp
      (.pointwise (.affine 2 0)) [⟨0⟩]) {} (once, ⟨1⟩) {} := by
    unfold Gives
    cbv
  have second : Gives (once.addOp (.pointwise (.affine 2 0)) [⟨1⟩]) {} (doubled [] [⟨0⟩] [], ⟨2⟩)
      {} := by
    unfold Gives
    cbv
  have twice := (input.call (e := .addOp _ [⟨0⟩]) trivial ⟨_, _, _, first⟩).call
    (e := .addOp _ [⟨1⟩]) trivial ⟨_, _, _, second⟩
  exact twice.call (e := .markOutput ⟨2⟩) trivial rfl

theorem not_marked_doubling :
    ∀ t ∈ doubling.filterMap Edit.added?, .input ∉ t.marks ∧ .output ∉ t.marks := by
  intro t ht
  obtain rfl := List.mem_singleton.1 ht
  exact ⟨List.not_mem_nil, List.not_mem_nil⟩

/-- What carries the mark of an output is an output of the graph. -/
theorem doubled_runtime_marks : History doubling (doubled [.output] [⟨0⟩] [⟨2⟩]) ∧
    ∃ t, (doubled [.output] [⟨0⟩] [⟨2⟩]).tensor ⟨2⟩ = .ok t ∧ .output ∈ t.marks ∧
      ⟨2⟩ ∈ (doubled [.output] [⟨0⟩] [⟨2⟩]).outputs := by
  have hpart : ∀ ins outs, .induced ins outs ∉ doubling := by simp [doubling]
  have hmarks := history_doubled.runtime_marks (v := ⟨2⟩) not_marked_doubling rfl
  have houtput : .output ∈ [Mark.tensorwise .channel, .output] := .tail _ (.head _)
  exact ⟨history_doubled, _, rfl, houtput, (hmarks.2 hpart).2.1 houtput⟩

/-- The part behind the first double is fed with it. It does not carry the mark of an input, and the
former input still does. -/
theorem part_runtime_marks :
    History (doubling ++ [.induced [⟨1⟩] [⟨2⟩]]) (doubled [.output] [⟨1⟩] [⟨2⟩]) ∧
      (∀ t ∈ (doubling ++ [Edit.induced [⟨1⟩] [⟨2⟩]]).filterMap Edit.added?,
        .input ∉ t.marks ∧ .output ∉ t.marks) ∧
      ∃ x y, (doubled [.output] [⟨1⟩] [⟨2⟩]).tensor ⟨0⟩ = .ok x ∧ .input ∈ x.marks ∧
        ⟨0⟩ ∉ (doubled [.output] [⟨1⟩] [⟨2⟩]).inputs ∧
        (doubled [.output] [⟨1⟩] [⟨2⟩]).tensor ⟨1⟩ = .ok y ∧ .input ∉ y.marks ∧
        ⟨1⟩ ∈ (doubled [.output] [⟨1⟩] [⟨2⟩]).inputs := by
  have hpart : (doubled [.output] [⟨0⟩] [⟨2⟩]).induced [⟨1⟩] [⟨2⟩] =
      .ok (doubled [.output] [⟨1⟩] [⟨2⟩]) := by rfl
  refine ⟨history_doubled.call trivial hpart, ?_, _, _, rfl, .head _, ?_, rfl, ?_, ?_⟩
  · rw [List.filterMap_append]
    exact List.forall_mem_append.2 ⟨not_marked_doubling, List.forall_mem_nil _⟩
  · decide
  · decide
  · decide

end TensorCompiler
