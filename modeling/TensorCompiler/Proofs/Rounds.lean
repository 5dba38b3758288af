import TensorCompiler.Pass.Simplify
import TensorCompiler.Proofs.Outcome
/-!
# Rounds of passes

A group that repeats runs its passes in rounds until one of them reports no change. This module says
what follows from the rounds for the group, whatever the passes are.

* `Fails`: the error that a computation ends with.
* `Reports`: a computation that fails with errors of graphs only.
* `Steady`: a report of no change is true, and does not depend on the supply of symbols.
* `Regular`: nothing depends on the supply of symbols, and errors are of graphs only.
* `group_steady`: a group of steady passes that has settled reports no change when it runs again.
* `group_settles`: it settles within its limit if no round changes anything after another one.
-/

namespace TensorCompiler

namespace PassM

variable {α β γ : Type}

/-! ## Failures -/

/-- On this graph and supply, the computation fails with an error. -/
def Fails (x : PassM α β) (g : Graph α) (s : Supply) (e : PassError) : Prop :=
  (Id.run ((x.run.run g).run s)).1.1 = .error e

theorem fails_bind_iff {x : PassM α β} {f : β → PassM α γ} {g : Graph α} {s : Supply}
    {e : PassError} : (x >>= f).Fails g s e ↔
      x.Fails g s e ∨ ∃ b g₁ s₁, x.Edits g s b g₁ s₁ ∧ (f b).Fails g₁ s₁ e := by
  unfold Fails Edits
  rw [run_bind]
  rcases Id.run ((x.run.run g).run s) with ⟨⟨_ | b, g₁⟩, s₁⟩
  · simp
  · simp only [reduceCtorEq, false_or, Prod.mk.injEq, Except.ok.injEq]
    constructor
    · intro h
      exact ⟨b, g₁, s₁, ⟨⟨rfl, rfl⟩, rfl⟩, h⟩
    · rintro ⟨b', g₁', s₁', ⟨⟨rfl, rfl⟩, rfl⟩, h⟩
      exact h

theorem fails_pure_iff {b : β} {g : Graph α} {s : Supply} {e : PassError} :
    (pure b : PassM α β).Fails g s e ↔ False := by
  show (Except.ok b : Except PassError β) = .error e ↔ False
  simp

theorem edits_throw_iff {b : β} {g g' : Graph α} {s s' : Supply} {e : PassError} :
    (throw e : PassM α β).Edits g s b g' s' ↔ False := by
  show (((Except.error e, g), s) = ((Except.ok b, g'), s')) ↔ _
  simp

/-- A computation does one thing only. -/
theorem edits_unique {x : PassM α β} {g g₁ g₂ : Graph α} {s s₁ s₂ : Supply} {b c : β}
    (h : x.Edits g s b g₁ s₁) (h' : x.Edits g s c g₂ s₂) : b = c ∧ g₁ = g₂ ∧ s₁ = s₂ := by
  have e := h.symm.trans h'
  simp only [Prod.mk.injEq, Except.ok.injEq] at e
  exact ⟨e.1.1, e.1.2, e.2⟩

/-- Every error of the computation is an error of a graph. -/
def Reports (x : PassM α β) : Prop := ∀ g s e, x.Fails g s e → ∃ e', e = .graph e'

section Reports

theorem Reports.bind {x : PassM α β} {f : β → PassM α γ} (hx : x.Reports)
    (hf : ∀ b, (f b).Reports) : (x >>= f).Reports := by
  intro g s e h
  rcases fails_bind_iff.1 h with h | ⟨b, g₁, s₁, -, h⟩
  · exact hx g s e h
  · exact hf b g₁ s₁ e h

theorem reports_pure (b : β) : (pure b : PassM α β).Reports :=
  fun _ _ _ h => (fails_pure_iff.1 h).elim

theorem reports_graph : (graph : PassM α (Graph α)).Reports := by
  intro g s e h
  cases (h : (Except.ok g : Except PassError (Graph α)) = .error e)

theorem reports_except (x : Except GraphError β) : (liftM x : PassM α β).Reports := by
  intro g s e h
  have h : x.mapError PassError.graph = .error e := h
  cases x with
  | ok b => cases h
  | error e' => exact ⟨e', (Except.error.inj h).symm⟩

theorem reports_foldlM {f : γ → β → PassM α γ} (hf : ∀ c b, (f c b).Reports) (bs : List β)
    (c : γ) : (bs.foldlM f c).Reports := by
  induction bs generalizing c with
  | nil => exact reports_pure c
  | cons b bs ih =>
    rw [List.foldlM_cons]
    exact (hf c b).bind ih

theorem reports_sweep {step : OpId → PassM α Bool} (h : ∀ o, (step o).Reports) :
    (sweep step).Reports :=
  reports_graph.bind fun _ => (reports_except _).bind fun _ =>
    reports_foldlM (fun _ o => (h o).bind fun _ => reports_pure _) _ _

end Reports

/-! ## Steady computations -/

/-- A report of no change is true, and the report is the same from any supply of symbols. -/
def Steady (x : PassM α Bool) : Prop :=
  ∀ g s h s', x.Edits g s false h s' → h = g ∧ ∀ r, ∃ r', x.Edits g r false g r'

/-- A sequence of steps that tells whether one of them changed the graph. -/
theorem edits_foldlM_false {f : β → PassM α Bool} {bs : List β} {c : Bool} {g h : Graph α}
    {s s' : Supply} (hf : ∀ b ∈ bs, (f b).Steady)
    (hedit : (bs.foldlM (fun changed b => return (← f b) || changed) c).Edits g s false h s') :
    c = false ∧ h = g ∧ ∀ r, ∃ r',
      (bs.foldlM (fun changed b => return (← f b) || changed) false).Edits g r false g r' := by
  induction bs generalizing c g s with
  | nil =>
    obtain ⟨rfl, rfl, -⟩ := edits_pure_iff.1 hedit
    exact ⟨rfl, rfl, fun r => ⟨r, edits_pure_iff.2 ⟨rfl, rfl, rfl⟩⟩⟩
  | cons b bs ih =>
    obtain ⟨hb, hbs⟩ := List.forall_mem_cons.1 hf
    obtain ⟨b₁, g₁, s₁, hstep, hrest⟩ := edits_steps_cons_iff.1 hedit
    obtain ⟨hchanged, rfl, hagain⟩ := ih hbs hrest
    obtain ⟨rfl, rfl⟩ := Bool.or_eq_false_iff.1 hchanged
    obtain ⟨rfl, hfirst⟩ := hb _ _ _ _ hstep
    refine ⟨rfl, rfl, fun r => ?_⟩
    obtain ⟨r₁, h₁⟩ := hfirst r
    obtain ⟨r₂, h₂⟩ := hagain r₁
    exact ⟨r₂, edits_steps_cons_iff.2 ⟨false, h, r₁, h₁, h₂⟩⟩

theorem Steady.sweep {step : OpId → PassM α Bool} (h : ∀ o, (step o).Steady) :
    (sweep step).Steady := by
  intro g s g' s' hedit
  obtain ⟨ops, hops, hedit⟩ := edits_sweep_iff.1 hedit
  obtain ⟨-, rfl, hagain⟩ := edits_foldlM_false (fun o _ => h o) hedit
  refine ⟨rfl, fun r => ?_⟩
  obtain ⟨r', hr⟩ := hagain r
  exact ⟨r', edits_sweep_iff.2 ⟨ops, hops, hr⟩⟩

/-- A sequence of steps that find nothing to change. -/
theorem edits_foldlM_idle {f : β → PassM α Bool} {bs : List β} {c d : Bool} {g h : Graph α}
    {s s' : Supply}
    (hf : ∀ b ∈ bs, ∀ s c h s', (f b).Edits g s c h s' → c = false ∧ h = g)
    (hedit : (bs.foldlM (fun changed b => return (← f b) || changed) c).Edits g s d h s') :
    d = c ∧ h = g := by
  induction bs generalizing c s with
  | nil =>
    obtain ⟨rfl, rfl, -⟩ := edits_pure_iff.1 hedit
    exact ⟨rfl, rfl⟩
  | cons b bs ih =>
    obtain ⟨hb, hbs⟩ := List.forall_mem_cons.1 hf
    obtain ⟨_, _, _, hstep, hrest⟩ := edits_steps_cons_iff.1 hedit
    obtain ⟨rfl, rfl⟩ := hb _ _ _ _ hstep
    exact ih hbs hrest

theorem sweep_of_idle {step : OpId → PassM α Bool} {g h : Graph α} {s s' : Supply} {c : Bool}
    (hstep : ∀ ops, g.topologicalOrder = .ok ops → ∀ o ∈ ops, ∀ s c h s',
      (step o).Edits g s c h s' → c = false ∧ h = g)
    (hedit : (sweep step).Edits g s c h s') : c = false ∧ h = g := by
  obtain ⟨ops, hops, hedit⟩ := edits_sweep_iff.1 hedit
  exact edits_foldlM_idle (hstep ops hops) hedit

/-! ## Regular computations -/

/-- Nothing depends on the supply of symbols, and every error is an error of a graph. -/
structure Regular (x : PassM α β) : Prop where
  repeats : ∀ g s b h s', x.Edits g s b h s' → ∀ r, ∃ r', x.Edits g r b h r'
  reports : x.Reports

theorem Regular.steady {x : PassM α Bool} (hx : x.Regular)
    (h : ∀ g s h s', x.Edits g s false h s' → h = g) : x.Steady := by
  intro g s g' s' hedit
  obtain rfl := h _ _ _ _ hedit
  exact ⟨rfl, hx.repeats _ _ _ _ _ hedit⟩

section Regular

theorem Regular.bind {x : PassM α β} {f : β → PassM α γ} (hx : x.Regular)
    (hf : ∀ b, (f b).Regular) : (x >>= f).Regular where
  repeats g s c h s' hedit r := by
    obtain ⟨b, g₁, s₁, h₁, h₂⟩ := edits_bind_iff.1 hedit
    obtain ⟨r₁, h₁⟩ := hx.repeats _ _ _ _ _ h₁ r
    obtain ⟨r₂, h₂⟩ := (hf b).repeats _ _ _ _ _ h₂ r₁
    exact ⟨r₂, edits_bind_iff.2 ⟨b, g₁, r₁, h₁, h₂⟩⟩
  reports := hx.reports.bind fun b => (hf b).reports

theorem regular_pure (b : β) : (pure b : PassM α β).Regular where
  repeats g s c h s' hedit r := by
    obtain ⟨rfl, rfl, rfl⟩ := edits_pure_iff.1 hedit
    exact ⟨r, edits_pure_iff.2 ⟨rfl, rfl, rfl⟩⟩
  reports := reports_pure b

theorem regular_graph : (graph : PassM α (Graph α)).Regular where
  repeats g s c h s' hedit r := by
    obtain ⟨rfl, rfl, rfl⟩ := edits_graph_iff.1 hedit
    exact ⟨r, edits_graph_iff.2 ⟨rfl, rfl, rfl⟩⟩
  reports := reports_graph

theorem regular_setGraph (h : Graph α) : (setGraph h : PassM α Unit).Regular where
  repeats g s c h' s' hedit r := by
    obtain ⟨rfl, rfl⟩ := edits_setGraph_iff.1 hedit
    exact ⟨r, edits_setGraph_iff.2 ⟨rfl, rfl⟩⟩
  reports g s e h' := by
    cases (h' : (Except.ok () : Except PassError Unit) = .error e)

theorem regular_except (x : Except GraphError β) : (liftM x : PassM α β).Regular where
  repeats g s c h s' hedit r := by
    obtain ⟨hx, rfl, rfl⟩ := edits_except_iff.1 hedit
    exact ⟨r, edits_except_iff.2 ⟨hx, rfl, rfl⟩⟩
  reports := reports_except x

theorem regular_graphM {x : GraphM β}
    (hx : ∀ s b s', Gives x s b s' → ∀ r, ∃ r', Gives x r b r') :
    (liftM x : PassM α β).Regular where
  repeats g s b h s' hedit r := by
    obtain ⟨hgives, rfl⟩ := edits_graphM_iff.1 hedit
    obtain ⟨r', hr⟩ := hx _ _ _ hgives r
    exact ⟨r', edits_graphM_iff.2 ⟨hr, rfl⟩⟩
  reports g s e h := by
    have h : (Id.run (x.run.run s)).1.mapError PassError.graph = .error e := h
    rcases hx : (Id.run (x.run.run s)).1 with e' | b
    · rw [hx] at h
      exact ⟨e', (Except.error.inj h).symm⟩
    · rw [hx] at h
      cases h

theorem regular_addVariable (t : Tensor α) : (addVariable t).Regular :=
  regular_graph.bind fun _ => (regular_setGraph _).bind fun _ => regular_pure _

theorem regular_addOp {op : Operator α} {ins : List VarId}
    (hop : ∀ g : Graph α, ∀ s b s', Gives (g.addOp op ins) s b s' →
      ∀ r, ∃ r', Gives (g.addOp op ins) r b r') : (addOp op ins).Regular :=
  regular_graph.bind fun g => (regular_graphM (hop g)).bind fun _ =>
    (regular_setGraph _).bind fun _ => regular_pure _

theorem regular_removeOperator (o : OpId) : (removeOperator o : PassM α Unit).Regular :=
  regular_graph.bind fun _ => (regular_except _).bind fun _ => regular_setGraph _

theorem regular_replaceVariable (old new : VarId) :
    (replaceVariable old new : PassM α Unit).Regular :=
  regular_graph.bind fun _ => (regular_except _).bind fun _ => regular_setGraph _

theorem regular_renameAxes [Scalar α] (f : Axis → Axis) :
    (renameAxes f : PassM α Bool).Regular :=
  regular_graph.bind fun _ => (regular_setGraph _).bind fun _ => regular_except _

end Regular

end PassM

/-! ## Groups -/

namespace Pass

variable {α : Type} {g h : Graph α} {s s' : Supply}

theorem steady_sequence {passes : List (Pass (PassM α))} (hp : ∀ p ∈ passes, p.run.Steady) :
    (sequence passes).Steady := by
  intro g s h s' hedit
  exact (PassM.edits_foldlM_false hp hedit).2

theorem reports_sequence {passes : List (Pass (PassM α))} (hp : ∀ p ∈ passes, p.run.Reports) :
    (sequence passes).Reports := by
  unfold sequence
  generalize false = c
  induction passes generalizing c with
  | nil => exact PassM.reports_pure c
  | cons p passes ih =>
    obtain ⟨hp, hps⟩ := List.forall_mem_cons.1 hp
    rw [List.foldlM_cons]
    exact (hp.bind fun _ => PassM.reports_pure _).bind fun c => ih hps c

/-- The last round of a group that settles reports no change. -/
theorem last_round {failure : PassError} {round : PassM α Bool} {n : Nat} {before c : Bool}
    (hedit : (untilSettled failure round n before).Edits g s c h s') :
    ∃ g₁ s₁, round.Edits g₁ s₁ false h s' := by
  induction n generalizing before g s with
  | zero => exact (PassM.edits_throw_iff.1 hedit).elim
  | succ n ih =>
    obtain ⟨changed, g₁, s₁, hround, hedit⟩ := PassM.edits_bind_iff.1 hedit
    cases changed with
    | true => exact ih hedit
    | false =>
      obtain ⟨-, rfl, rfl⟩ := PassM.edits_pure_iff.1 hedit
      exact ⟨g, s, hround⟩

/-- A repeated group keeps what each of its rounds keeps. -/
theorem group_keeps {Q : Graph α → Prop} {name : String} {passes : List (Pass (PassM α))}
    {limit : Nat} {c : Bool}
    (hround : ∀ g s c h s', Q g → (sequence passes).Edits g s c h s' → Q h) (hQ : Q g)
    (hedit : (group name passes (some limit)).run.Edits g s c h s') : Q h := by
  have rounds : ∀ {failure : PassError} {n : Nat} {before : Bool} {g : Graph α} {s : Supply}, Q g →
      (untilSettled failure (sequence passes) n before).Edits g s c h s' → Q h := by
    intro failure n
    induction n with
    | zero => exact fun _ hedit => (PassM.edits_throw_iff.1 hedit).elim
    | succ n ih =>
      intro before g s hQ hedit
      obtain ⟨changed, g₁, s₁, hfirst, hedit⟩ := PassM.edits_bind_iff.1 hedit
      have hQ₁ := hround g s changed g₁ s₁ hQ hfirst
      cases changed with
      | true => exact ih hQ₁ hedit
      | false =>
        obtain ⟨-, rfl, -⟩ := PassM.edits_pure_iff.1 hedit
        exact hQ₁
  exact rounds hQ hedit

/-- A group of steady passes that settled does nothing when it runs again. -/
theorem group_steady {name : String} {passes : List (Pass (PassM α))} {limit : Nat} {c : Bool}
    (hp : ∀ p ∈ passes, p.run.Steady)
    (hedit : (group name passes (some limit)).run.Edits g s c h s') (r : Supply) :
    ∃ r', (group name passes (some limit)).run.Edits h r false h r' := by
  obtain ⟨g₁, s₁, hround⟩ := last_round hedit
  obtain ⟨rfl, hagain⟩ := steady_sequence hp _ _ _ _ hround
  obtain ⟨r', hr⟩ := hagain r
  obtain ⟨n, hn⟩ : ∃ n, Nat.max limit 1 = n + 1 := ⟨Nat.max limit 1 - 1, by grind⟩
  refine ⟨r', ?_⟩
  simp only [group, hn]
  exact PassM.edits_bind_iff.2 ⟨false, h, r', hr, PassM.edits_pure_iff.2 ⟨rfl, rfl, rfl⟩⟩

/-- A group with two rounds or more settles if no round changes a graph that another one left. -/
theorem group_settles {name name' : String} {passes : List (Pass (PassM α))} {limit limit' : Nat}
    (hp : ∀ p ∈ passes, p.run.Reports) (hlimit : 2 ≤ limit)
    (hsecond : ∀ g₁ s₁ c g₂ s₂ d, (sequence passes).Edits g s c g₁ s₁ →
      (sequence passes).Edits g₁ s₁ d g₂ s₂ → d = false) :
    ¬(group name passes (some limit)).run.Fails g s (.fixedPointNotReached name' limit') := by
  have hround : (sequence passes).Reports := reports_sequence hp
  obtain ⟨n, hn⟩ : ∃ n, Nat.max limit 1 = n + 2 := ⟨limit - 2, by grind⟩
  intro hfail
  simp only [group, hn, untilSettled, PassM.fails_bind_iff] at hfail
  rcases hfail with hfail | ⟨c, g₁, s₁, hfirst, hfail⟩
  · obtain ⟨_, ⟨⟩⟩ := hround _ _ _ hfail
  cases c with
  | false => exact PassM.fails_pure_iff.1 hfail
  | true =>
    rcases PassM.fails_bind_iff.1 hfail with hfail | ⟨d, g₂, s₂, hnext, hfail⟩
    · obtain ⟨_, ⟨⟩⟩ := hround _ _ _ hfail
    · obtain rfl := hsecond g₁ s₁ true g₂ s₂ d hfirst hnext
      exact PassM.fails_pure_iff.1 hfail

end Pass

end TensorCompiler
