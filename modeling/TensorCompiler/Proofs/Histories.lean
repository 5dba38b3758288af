import TensorCompiler.Pass.TextureLimit
import TensorCompiler.Proofs.AxisClasses
import TensorCompiler.Proofs.Session
/-!
# Histories of a graph

What has happened to a graph is a list of edits. A call of a client is one edit, and a pass makes
edits of the same kinds, but for two of its own: it renames axes to the representatives of their
classes, and it lets a constant take the place of what an operator computes. A `History` is any
sequence of calls and passes that have succeeded, in the order of their edits. What holds of every
graph with a history is shown once for each kind of edit.

* `Edit.Turns`: what an edit makes of a graph.
* `Optimizes`: the passes, alone and in groups of any depth.
* `Optimizes.traced`: a pass that succeeds has made edits, one after the other.
* `History.of_pass`: so it continues a history.
* `History.wellformed`: the arena of every graph with a history is wellformed.
-/

namespace TensorCompiler

/-- One change to a graph. -/
inductive Edit (α : Type) where
  | addVariable (t : Tensor α)
  /-- Adds a variable fed by the runtime, which gets this handle. -/
  | addInput (t : Tensor α) (v : VarId)
  | markOutput (v : VarId)
  | addOp (op : Operator α) (inputs : List VarId)
  | removeOperator (o : OpId)
  | replaceVariable (old new : VarId)
  | renameAxes (f : Axis → Axis)
  | induced (inputs outputs : List VarId)
  /-- Renames every axis to the representative of its class. -/
  | unifyAxes (classes : AxisClasses)
  /-- Lets a constant take the place of what an operator computes. -/
  | fold (o : OpId) (constant : Tensor α)

namespace Edit

variable {α : Type}

/-- The edit is a call of a client. -/
def IsCall : Edit α → Prop
  | unifyAxes _ | fold .. => False
  | _ => True

/-- The edit is one that passes make. -/
def IsPassMade : Edit α → Prop
  | addOp .. | removeOperator _ | replaceVariable .. | unifyAxes _ | fold .. => True
  | _ => False

/-- The edit succeeds on a graph and leaves another one. -/
def Turns [Scalar α] (g h : Graph α) : Edit α → Prop
  | addVariable t => (g.addVariable t).1 = h
  | addInput t v => g.addInput t = (h, v)
  | markOutput v => g.markOutput v = .ok h
  | addOp op ins => ∃ v s s', Gives (g.addOp op ins) s (h, v) s'
  | removeOperator o => ∃ node, g.removeOperator o = .ok (h, node)
  | replaceVariable old new => g.replaceVariable old new = .ok h
  | renameAxes f => ∃ b, g.renameAxes f = (h, .ok b)
  | induced ins outs => g.induced ins outs = .ok h
  | unifyAxes classes => classes.Sound ∧ ∃ b, g.renameAxes classes = (h, .ok b)
  | fold o constant => ∃ node t data, g.node? o = some node ∧ g.tensor node.output = .ok t ∧
      t.fold data = .ok constant ∧
      ((g.detach o node.output).addVariable constant).1.replaceVariable node.output
        ⟨(g.detach o node.output).slots.size⟩ = .ok h

end Edit

section

variable {α β γ : Type} [Scalar α]

/-- The edits lead from one graph to another, in their order. -/
inductive Trace : Graph α → List (Edit α) → Graph α → Prop
  | refl (g : Graph α) : Trace g [] g
  | step {g h i : Graph α} {es : List (Edit α)} {e : Edit α} :
    Trace g es h → e.Turns h i → Trace g (es ++ [e]) i

variable {g h i : Graph α} {es es' : List (Edit α)} {e : Edit α}

theorem Trace.single (k : e.Turns g h) : Trace g [e] h := .step (.refl g) k

theorem Trace.trans (k : Trace g es h) (k' : Trace h es' i) : Trace g (es ++ es') i := by
  induction k' with
  | refl => rwa [List.append_nil]
  | step _ hturn ih =>
    rw [← List.append_assoc]
    exact ih.step hturn

/-- What every edit keeps, the edits keep. -/
theorem Trace.keeps {Q : Graph α → Prop} (k : Trace g es h) (hQ : Q g)
    (hstep : ∀ e ∈ es, ∀ g h, e.Turns g h → Q g → Q h) : Q h := by
  induction k with
  | refl => exact hQ
  | step _ hturn ih =>
    refine hstep _ (List.mem_append_right _ (List.mem_singleton_self _)) _ _ hturn ?_
    exact ih fun e he => hstep e (List.mem_append_left _ he)

/-! ## The edits of a pass -/

namespace PassM

/-- Whenever the computation succeeds, it has made edits. -/
def Traced (x : PassM α β) : Prop := ∀ g s b h s', x.Edits g s b h s' →
  ∃ es, Trace g es h ∧ ∀ e ∈ es, e.IsPassMade

theorem Traced.of_edit {x : PassM α β}
    (hx : ∀ g s b h s', x.Edits g s b h s' → h = g ∨ ∃ e : Edit α, e.Turns g h ∧ e.IsPassMade) :
    x.Traced := by
  intro g s b h s' hedit
  obtain rfl | ⟨e, hturn, he⟩ := hx g s b h s' hedit
  · exact ⟨[], .refl h, List.forall_mem_nil _⟩
  · exact ⟨[e], .single hturn, List.forall_mem_singleton.2 he⟩

theorem Traced.bind {x : PassM α β} {f : β → PassM α γ} (hx : x.Traced) (hf : ∀ b, (f b).Traced) :
    (x >>= f).Traced := by
  intro g s c h s' hedit
  obtain ⟨b, g₁, s₁, h₁, h₂⟩ := edits_bind_iff.1 hedit
  obtain ⟨es, k, hes⟩ := hx _ _ _ _ _ h₁
  obtain ⟨es', k', hes'⟩ := hf b _ _ _ _ _ h₂
  exact ⟨es ++ es', k.trans k', List.forall_mem_append.2 ⟨hes, hes'⟩⟩

theorem traced_pure (b : β) : (pure b : PassM α β).Traced :=
  .of_edit fun _ _ _ _ _ hedit => .inl (edits_pure_iff.1 hedit).2.1.symm

theorem traced_graph : (graph : PassM α (Graph α)).Traced :=
  .of_edit fun _ _ _ _ _ hedit => .inl (edits_graph_iff.1 hedit).2.1.symm

theorem traced_except (x : Except GraphError β) : (liftM x : PassM α β).Traced :=
  .of_edit fun _ _ _ _ _ hedit => .inl (edits_except_iff.1 hedit).2.1.symm

theorem traced_graphM (x : GraphM β) : (liftM x : PassM α β).Traced :=
  .of_edit fun _ _ _ _ _ hedit => .inl (edits_graphM_iff.1 hedit).2.symm

theorem traced_check (x : Except PassError β) : (liftM x : PassM α β).Traced := by
  refine .of_edit fun g s b h s' hedit => .inl ?_
  have hrun : ((x, g), s) = ((Except.ok b, h), s') := hedit
  exact (congrArg (·.1.2) hrun).symm

theorem traced_addOp (op : Operator α) (ins : List VarId) : (addOp op ins).Traced :=
  .of_edit fun _ s b _ s' hedit =>
    .inr ⟨.addOp op ins, ⟨b, s, s', edits_addOp_iff.1 hedit⟩, trivial⟩

theorem traced_removeOperator (o : OpId) : (removeOperator o : PassM α Unit).Traced :=
  .of_edit fun _ _ _ _ _ hedit =>
    .inr ⟨.removeOperator o, (edits_removeOperator_iff.1 hedit).1, trivial⟩

theorem traced_replaceVariable (old new : VarId) :
    (replaceVariable old new : PassM α Unit).Traced :=
  .of_edit fun _ _ _ _ _ hedit =>
    .inr ⟨.replaceVariable old new, (edits_replaceVariable_iff.1 hedit).1, trivial⟩

theorem traced_foldlM {f : γ → β → PassM α γ} {xs : List β} (hf : ∀ c, ∀ x ∈ xs, (f c x).Traced)
    (c : γ) : (xs.foldlM f c).Traced := by
  induction xs generalizing c with
  | nil => exact traced_pure c
  | cons x xs ih =>
    rw [List.foldlM_cons]
    exact (hf c x (List.mem_cons_self ..)).bind
      (ih fun c y hy => hf c y (List.mem_cons_of_mem _ hy))

theorem traced_sweep {step : OpId → PassM α Bool} (hstep : ∀ o, (step o).Traced) :
    (sweep step).Traced :=
  traced_graph.bind fun _ => (traced_except _).bind fun _ =>
    traced_foldlM (fun _ o _ => (hstep o).bind fun _ => traced_pure _) _

theorem traced_dropReinterpret (o : OpId) : (dropReinterpret o : PassM α Bool).Traced := by
  refine traced_graph.bind fun g => (traced_except _).bind fun node => ?_
  split
  · split
    · exact traced_pure _
    · refine (traced_except _).bind fun ins => ?_
      split
      · exact (traced_removeOperator _).bind fun _ => (traced_replaceVariable _ _).bind fun _ =>
          traced_pure _
      · exact traced_pure _
  · exact traced_pure _

theorem traced_foldConstant (o : OpId) : (foldConstant o : PassM α Bool).Traced := by
  refine .of_edit fun g s b h s' hedit => ?_
  rcases Graph.edits_foldConstant hedit with
    ⟨-, rfl, -⟩ | ⟨-, node, _, _, _, t, data, folded, hn, -, -, -, ht, -, -, hfold, hr⟩
  · exact .inl rfl
  · exact .inr ⟨.fold o folded, ⟨node, t, data, hn, ht, hfold, hr⟩, trivial⟩

theorem traced_expandSelect (o : OpId) : (expandSelect o : PassM α Bool).Traced := by
  refine traced_graph.bind fun g => (traced_except _).bind fun node => ?_
  split
  · refine (traced_except _).bind fun ins => ?_
    split
    · split
      · refine (traced_except _).bind fun compared => ?_
        split
        · exact traced_pure _
        · refine (traced_except _).bind fun _ => (traced_except _).bind fun _ =>
            (traced_except _).bind fun _ => (traced_graphM _).bind fun _ =>
              (traced_except _).bind fun _ => ?_
          dsimp only
          split
          · exact traced_pure _
          · exact (traced_removeOperator _).bind fun _ => (traced_addOp _ _).bind fun _ =>
              (traced_addOp _ _).bind fun _ => (traced_addOp _ _).bind fun _ =>
                (traced_addOp _ _).bind fun _ => (traced_replaceVariable _ _).bind fun _ =>
                  traced_pure _
      · exact traced_pure _
    · exact traced_pure _
  · exact traced_pure _

end PassM

namespace Pass

theorem traced_unifyAxes (hints : List (Axis × Axis)) (batchFirst : Bool) :
    (unifyAxes hints batchFirst : Pass (PassM α)).run.Traced := by
  refine .of_edit fun g s b h s' hedit => ?_
  obtain ⟨batch, -, hunify⟩ := Graph.edits_unifyAxes_iff.1 hedit
  obtain ⟨classes, hclasses, -, hrename⟩ := Graph.edits_unifyWith_iff.1 hunify
  split at hrename
  · have hsound := (AxisClasses.sound_of_merges AxisClasses.sound_id hclasses).1
    exact .inr ⟨.unifyAxes classes, ⟨hsound, b, hrename⟩, trivial⟩
  · exact .inl hrename.2

theorem traced_checkTextureLimit (max : Nat) (mode : ChannelMode)
    (overrides : List (VarId × TextureShape)) :
    (checkTextureLimit max mode overrides : Pass (PassM α)).run.Traced :=
  PassM.traced_graph.bind fun _ => (PassM.traced_check _).bind fun _ => PassM.traced_pure _

theorem traced_sequence {passes : List (Pass (PassM α))} (hp : ∀ p ∈ passes, p.run.Traced) :
    (sequence passes).Traced :=
  PassM.traced_foldlM (fun _ p h => (hp p h).bind fun _ => PassM.traced_pure _) _

theorem traced_untilSettled {failure : PassError} {round : PassM α Bool} (hround : round.Traced)
    (n : Nat) (before : Bool) : (untilSettled failure round n before).Traced := by
  induction n generalizing before with
  | zero => exact fun _ _ _ _ _ hedit => (PassM.edits_throw_iff.1 hedit).elim
  | succ n ih =>
    refine hround.bind fun changed => ?_
    cases changed with
    | true => exact ih true
    | false => exact PassM.traced_pure before

theorem traced_group {name : String} {passes : List (Pass (PassM α))} {repeats : Option Nat}
    (hp : ∀ p ∈ passes, p.run.Traced) : (group name passes repeats).run.Traced := by
  cases repeats with
  | none => exact traced_sequence hp
  | some n => exact traced_untilSettled (traced_sequence hp) _ _

end Pass

/-- The passes, alone and in groups of any depth. -/
inductive Optimizes : Pass (PassM α) → Prop
  | unifyAxes (hints : List (Axis × Axis)) (batchFirst : Bool) :
    Optimizes (TensorCompiler.unifyAxes hints batchFirst)
  | dropReinterprets : Optimizes TensorCompiler.dropReinterprets
  | foldConstants : Optimizes TensorCompiler.foldConstants
  | expandSelects : Optimizes TensorCompiler.expandSelects
  | checkTextureLimit (max : Nat) (mode : ChannelMode) (overrides : List (VarId × TextureShape)) :
    Optimizes (TensorCompiler.checkTextureLimit max mode overrides)
  | group (name : String) {passes : List (Pass (PassM α))} (repeats : Option Nat) :
    (∀ p ∈ passes, Optimizes p) → Optimizes (Pass.group name passes repeats)

/-- A pass that succeeds has made edits. -/
theorem Optimizes.traced {p : Pass (PassM α)} (hp : Optimizes p) : p.run.Traced := by
  induction hp with
  | unifyAxes hints batchFirst => exact Pass.traced_unifyAxes hints batchFirst
  | dropReinterprets => exact PassM.traced_sweep PassM.traced_dropReinterpret
  | foldConstants => exact PassM.traced_sweep PassM.traced_foldConstant
  | expandSelects => exact PassM.traced_sweep PassM.traced_expandSelect
  | checkTextureLimit max mode overrides => exact Pass.traced_checkTextureLimit max mode overrides
  | group name repeats _ ih => exact Pass.traced_group ih

/-! ## Histories -/

/-- Calls and passes that have succeeded, as the edits they made, lead from the empty graph to
this one. -/
inductive History : List (Edit α) → Graph α → Prop
  | empty : History [] {}
  | call {done : List (Edit α)} {e : Edit α} {g h : Graph α} : History done g → e.IsCall →
    e.Turns g h → History (done ++ [e]) h
  | pass {done made : List (Edit α)} {p : Pass (PassM α)} {g h : Graph α} {s s' : Supply}
    {b : Bool} : History done g → Optimizes p → p.run.Edits g s b h s' → Trace g made h →
    (∀ e ∈ made, e.IsPassMade) → History (done ++ made) h

theorem History.trace (k : History es g) : Trace {} es g := by
  induction k with
  | empty => exact .refl _
  | call _ _ hturn ih => exact ih.step hturn
  | pass _ _ _ hmade _ ih => exact ih.trans hmade

/-- Every pass that succeeds continues a history. -/
theorem History.of_pass {p : Pass (PassM α)} {b : Bool} {s s' : Supply} (k : History es g)
    (hp : Optimizes p) (hedit : p.run.Edits g s b h s') :
    ∃ es', (∀ e ∈ es', e.IsPassMade) ∧ History (es ++ es') h := by
  obtain ⟨es', hmade, hes'⟩ := hp.traced _ _ _ _ _ hedit
  exact ⟨es', hes', .pass k hp hedit hmade hes'⟩

theorem Edit.Turns.wellformed (hg : g.Wellformed) (k : e.Turns g h) : h.Wellformed := by
  cases e with
  | addVariable t => exact k ▸ Graph.wellformed_addVariable hg t
  | addInput t v =>
    obtain rfl : (g.addInput t).1 = h := congrArg Prod.fst k
    exact Graph.wellformed_addInput hg t
  | markOutput v => exact Graph.wellformed_markOutput hg k
  | addOp op ins =>
    obtain ⟨v, s, s', hop⟩ := k
    exact Graph.wellformed_addOp hg hop
  | removeOperator o =>
    obtain ⟨node, hr⟩ := k
    exact Graph.wellformed_removeOperator hg hr
  | replaceVariable old new => exact Graph.wellformed_replaceVariable hg k
  | renameAxes f =>
    obtain ⟨b, hf⟩ := k
    obtain rfl : (g.renameAxes f).1 = h := congrArg Prod.fst hf
    exact Graph.wellformed_renameAxes hg f
  | induced ins outs => exact Graph.wellformed_induced hg k
  | unifyAxes classes =>
    obtain ⟨-, b, hf⟩ := k
    obtain rfl : (g.renameAxes classes).1 = h := congrArg Prod.fst hf
    exact Graph.wellformed_renameAxes hg classes
  | fold o constant =>
    obtain ⟨node, _, _, hn, -, -, hr⟩ := k
    exact Graph.wellformed_replaceVariable
      (Graph.wellformed_addVariable (Graph.wellformed_detach hg hn) constant) hr

theorem Trace.wellformed (k : Trace g es h) (hg : g.Wellformed) : h.Wellformed :=
  k.keeps hg fun _ _ _ _ hturn hg => hturn.wellformed hg

theorem History.wellformed (k : History es g) : g.Wellformed :=
  k.trace.wellformed Graph.wellformed_empty

end

end TensorCompiler
