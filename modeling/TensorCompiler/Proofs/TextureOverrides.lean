import TensorCompiler.Proofs.Initialization
import TensorCompiler.Proofs.TextureLimit
/-!
# Configured textures after simplification

A texture shape is configured for a variable of the graph that is compiled, and looked up under the
handles of the graph that simplification leaves. The shape counts as long as the variable keeps its
handle. Where a pass lets another variable take its place, the configuration is not consulted for
that one, which gets a derived shape.

* `Varies`: a variable depends on a leaf without data, so that no pass can fold it.
* `Lasting`: a condition on the graph that is compiled, under which a variable keeps its handle.
* `Rewired.varies`, `Rewired.lasting`: what a step of a pass keeps.
* `Lasting.simplify`: what the whole pipeline keeps.
* `compile_textureShapes`: the theorem about the textures of a compiled graph.
* `scaledRow_loses_shape`: a constant takes the place of a variable, and the shape is lost.
-/

namespace TensorCompiler

namespace Graph

section

variable {α : Type}

/-- A variable depends on a leaf that holds no data. -/
inductive Varies (g : Graph α) : VarId → Prop
  | leaf {v t} : g.slot? v = some (.live t none) → t.data = none → Varies g v
  | computed {v u ins} : g.OutputOf v ins → u ∈ ins → Varies g u → Varies g v

/-- A variable that no pass replaces. Either nothing computes it, or the operator that does can
neither be folded, nor dropped as a reinterpretation, nor expanded as a selection. -/
structure Lasting (g : Graph α) (v : VarId) : Prop where
  stands : g.resolve v = .ok v
  computed : ∀ o, g.producer v = some o → g.Varies v ∧
    ∃ n, g.node? o = some n ∧ n.op.kind ≠ .reinterpretAxis ∧ n.op.kind ≠ .select

end

variable {α : Type} {g h : Graph α} {o : OpId} {a b u v : VarId} {ins : List VarId}

/-- What varies is no constant. -/
theorem Varies.data_eq_none (hg : g.Wellformed) (hv : g.Varies v) {t : Tensor α}
    (ht : g.tensor v = .ok t) : t.data = none := by
  obtain ⟨p, hslot⟩ := tensor_ok_iff.1 ht
  cases hv with
  | leaf hleaf hdata =>
    obtain ⟨rfl, -⟩ : _ = t ∧ none = p := by simpa using hleaf.symm.trans hslot
    exact hdata
  | computed hv =>
    obtain ⟨o, hp, -⟩ := hv.computed
    obtain rfl : p = some o := (producer_of_live hslot).symm.trans hp
    exact (hg.produced v t o hslot).1

/-- Operators on constants have no input that varies. -/
theorem not_varies_of_constantArguments (hg : g.Wellformed) {ts : List (Tensor α)}
    {arguments : List (TensorType × Array α)} (hts : g.tensors ins = .ok ts)
    (harguments : constantArguments? ts = some arguments) (hu : u ∈ ins) : ¬g.Varies u := by
  intro hvaries
  obtain ⟨t, ht, htensor⟩ := exists_of_forall₂_left (tensors_ok_iff.1 hts) hu
  unfold constantArguments? at harguments
  rw [option_mapM_iff] at harguments
  obtain ⟨argument, -, hargument⟩ := exists_of_forall₂_left harguments ht
  rw [hvaries.data_eq_none hg htensor] at hargument
  cases hargument

/-! ## Steps of passes -/

/-- Where another variable takes the place of one that varies, and varies too, all that varied
does. -/
theorem Rewired.varies (hg : g.Wellformed) (r : Rewired g h o a b)
    (hnew : ∀ ins u, g.inputsOf o = .ok ins → u ∈ ins → g.Varies u →
      h.Varies (if u = a then b else u) → h.Varies b)
    (hv : g.Varies v) : h.Varies (if v = a then b else v) := by
  obtain ⟨x, hx⟩ := r.produced
  induction hv with
  | @leaf v t hslot hdata =>
    have hva : v ≠ a := by
      rintro rfl
      cases hx.symm.trans hslot
    obtain ⟨t', hslot', hdata'⟩ := r.live v t none hva hslot
    rw [if_neg hva]
    exact .leaf hslot' (hdata'.trans hdata)
  | @computed v u ins hv hu hvaries ih =>
    by_cases hva : v = a
    · subst hva
      rw [if_pos rfl]
      exact hnew ins u (r.inputsOf_gone hv) hu hvaries ih
    · rw [if_neg hva]
      exact .computed (r.outputOf hg hv hva) (List.mem_map.2 ⟨u, hu, rfl⟩) ih

/-- A step keeps what lasts, but for the output of the operator that is gone. -/
theorem Rewired.lasting (hg : g.Wellformed) (r : Rewired g h o a b)
    (hnew : ∀ ins u, g.inputsOf o = .ok ins → u ∈ ins → g.Varies u →
      h.Varies (if u = a then b else u) → h.Varies b)
    (hva : v ≠ a) (hv : g.Lasting v) : h.Lasting v := by
  obtain ⟨t, p, hslot⟩ := live_of_resolve hv.stands
  obtain ⟨t', hslot', -⟩ := r.live v t p hva hslot
  refine ⟨resolve_of_live hslot', fun q hq => ?_⟩
  obtain rfl : p = some q := (producer_of_live hslot').symm.trans hq
  obtain ⟨hvaries, n, hn, hkind⟩ := hv.computed q (producer_of_live hslot)
  have hvaries' := r.varies hg hnew hvaries
  rw [if_neg hva] at hvaries'
  exact ⟨hvaries', n, r.node q n (r.producer_ne hg hslot hva) hn, hkind⟩

/-- The output of an operator that is gone did not last, if the operator is of a kind that passes
take out, or the output does not vary. -/
theorem Lasting.ne_output (r : Rewired g h o a b) {n : Node α} (hn : g.node? o = some n)
    (hgone : g.Varies a → n.op.kind = .reinterpretAxis ∨ n.op.kind = .select)
    (hv : g.Lasting v) : v ≠ a := by
  rintro rfl
  obtain ⟨x, hx⟩ := r.produced
  obtain ⟨hvaries, n', hn', hreinterpret, hselect⟩ := hv.computed o (producer_of_live hx)
  obtain rfl := Option.some.inj (hn.symm.trans hn')
  exact (hgone hvaries).elim hreinterpret hselect

/-- Renamed axes change nothing about what varies. -/
theorem SameArena.varies (k : SameArena g h) (hv : g.Varies v) : h.Varies v := by
  induction hv with
  | leaf hslot hdata =>
    obtain ⟨t', hslot', hdata'⟩ := k.live hslot
    exact .leaf hslot' (hdata'.trans hdata)
  | computed hv hu _ ih =>
    obtain ⟨o, hp, hins⟩ := hv.computed
    exact .computed ⟨(k.resolve _).trans hv.stands, o, (k.producer _).trans hp,
      k.inputsOf.2 hins⟩ hu ih

theorem Lasting.dropReinterpret {s s' : Supply} {c : Bool} (hg : g.Wellformed) (hv : g.Lasting v)
    (ho : g.Computes o) (hedit : (PassM.dropReinterpret o : PassM α Bool).Edits g s c h s') :
    h = g ∨ h.Wellformed ∧ h.Lasting v ∧ ∃ a b, Rewired g h o a b := by
  refine (rewired_dropReinterpret hg ho hedit).imp_right ?_
  rintro ⟨hh, node, order, input, hn, hop, hins, r⟩
  have hkind : node.op.kind = .reinterpretAxis := by rw [hop]; rfl
  refine ⟨hh, r.lasting hg (fun ins u hins' hu _ hvaries => ?_)
    (hv.ne_output r hn fun _ => .inl hkind) hv, _, _, r⟩
  -- The input stands in for the output.
  obtain rfl := Except.ok.inj (hins.symm.trans hins')
  obtain rfl := List.mem_singleton.1 hu
  split at hvaries <;> exact hvaries

section

variable [Scalar α] {s s' : Supply} {c : Bool}

theorem Lasting.foldConstant (hg : g.Wellformed) (hv : g.Lasting v) (ho : g.Computes o)
    (hedit : (PassM.foldConstant o : PassM α Bool).Edits g s c h s') :
    h = g ∨ h.Wellformed ∧ h.Lasting v ∧ ∃ a b, Rewired g h o a b := by
  refine (rewired_foldConstant hg ho hedit).imp_right ?_
  rintro ⟨hh, node, ins, ts, arguments, t, data, folded, hn, hins, hts, harguments, -, -, -, -, r⟩
  have constant : ∀ {u}, u ∈ ins → ¬g.Varies u :=
    fun hu => not_varies_of_constantArguments hg hts harguments hu
  have fixed : ¬g.Varies node.output := by
    intro hvaries
    obtain ⟨x, hx⟩ := r.produced
    cases hvaries with
    | leaf hleaf => cases hx.symm.trans hleaf
    | computed houtput hu hvaries =>
      obtain rfl := Except.ok.inj (hins.symm.trans (r.inputsOf_gone houtput))
      exact constant hu hvaries
  refine ⟨hh, r.lasting hg (fun ins' u hins' hu hvaries _ => ?_)
    (hv.ne_output r hn fun hvaries => absurd hvaries fixed) hv, _, _, r⟩
  obtain rfl := Except.ok.inj (hins.symm.trans hins')
  exact absurd hvaries (constant hu)

/-- The arithmetic form of a selection varies if one of the operands does. -/
theorem varies_expanded {output cond x y : VarId} {chosen inverse other sum : TensorType}
    (r : Diverts (g.expanded o output cond x y chosen inverse other sum) h output
      ⟨g.slots.size + 3⟩)
    (hlt : output.index < g.slots.size)
    (hins : ∀ u ∈ [cond, x, y], (g.detach o output).resolve u = .ok u) (hu : u ∈ [cond, x, y])
    (hvaries : h.Varies (if u = output then ⟨g.slots.size + 3⟩ else u)) :
    h.Varies ⟨g.slots.size + 3⟩ := by
  obtain ⟨hchosen, -, hother, hsum⟩ := outputOf_expanded r hlt hins
  have product : u ∈ [cond, x] → h.Varies ⟨g.slots.size + 3⟩ := fun hu =>
    .computed hsum (.head _) (.computed hchosen (List.mem_map.2 ⟨u, hu, rfl⟩) hvaries)
  rcases List.mem_cons.1 hu with rfl | hu
  · exact product (.head _)
  rcases List.mem_cons.1 hu with rfl | hu
  · exact product (.tail _ (.head _))
  · obtain rfl := List.mem_singleton.1 hu
    exact .computed hsum (.tail _ (.head _)) (.computed hother (.tail _ (.head _)) hvaries)

theorem Lasting.expandSelect (hg : g.Wellformed) (hv : g.Lasting v) (ho : g.Computes o)
    (hedit : (PassM.expandSelect o : PassM α Bool).Edits g s c h s') :
    h = g ∨ h.Wellformed ∧ h.Lasting v ∧ ∃ a b, Rewired g h o a b := by
  refine (rewired_expandSelect hg ho hedit).imp_right ?_
  rintro ⟨hh, node, cond, x, y, tc, tx, ty, t, chosen, inverse, other, sum, hn, hselects,
    -, -, -, -, r, -, w⟩
  have hkind : node.op.kind = .select := by
    obtain ⟨node', hn', hop⟩ := hselects.select
    obtain rfl := Option.some.inj (hn.symm.trans hn')
    rw [hop]
    rfl
  refine ⟨hh, w.lasting hg (fun ins u hins hu _ hvaries => ?_)
    (hv.ne_output w hn fun _ => .inr hkind) hv, _, _, w⟩
  obtain rfl := Except.ok.inj (hselects.inputs.symm.trans hins)
  exact varies_expanded r (hg.output o node hn).1 (fun u hu => resolve_detach hg hn
    (resolve_of_mem_inputsOf hins hu)) hu hvaries

theorem Lasting.renameAxes {f : Axis → Axis} (hv : g.Lasting v)
    (hok : (g.renameAxes f).2 = .ok c) : (g.renameAxes f).1.Lasting v := by
  have k := sameArena_renameAxes g f
  refine ⟨(k.resolve v).trans hv.stands, fun o hp => ?_⟩
  obtain ⟨hvaries, n, hn, hkind⟩ := hv.computed o ((k.producer v).symm.trans hp)
  obtain ⟨n', _, hn', hnode⟩ := (renameAxes_ok hok).2 o n hn
  rw [← Operator.kind_mapAxes (renameAxes_node hnode).2.2] at hkind
  exact ⟨k.varies hvaries, n', hn', hkind⟩

theorem Lasting.unifyAxes {hints : List (Axis × Axis)} {batchFirst : Bool} (hv : g.Lasting v)
    (hedit : (TensorCompiler.unifyAxes hints batchFirst : Pass (PassM α)).run.Edits g s c h s') :
    h.Lasting v := by
  obtain ⟨batch, -, hunify⟩ := edits_unifyAxes_iff.1 hedit
  obtain ⟨classes, -, -, hrename⟩ := edits_unifyWith_iff.1 hunify
  split at hrename
  · obtain rfl : (g.renameAxes classes).1 = h := congrArg Prod.fst hrename
    exact hv.renameAxes (congrArg Prod.snd hrename)
  · exact hrename.2 ▸ hv

/-- Simplification replaces nothing that lasts. -/
theorem Lasting.simplify {config : Config} (hg : g.Wellformed) (hv : g.Lasting v)
    (hedit : (TensorCompiler.simplify config : Pass (PassM α)).run.Edits g s c h s') :
    h.Wellformed ∧ h.Lasting v := by
  refine Pass.group_keeps (Q := fun g => g.Wellformed ∧ g.Lasting v) ?_ ⟨hg, hv⟩ hedit
  rintro g s c h s' ⟨hg, hv⟩ hround
  obtain ⟨c₁, g₁, s₁, c₂, g₂, s₂, c₃, g₃, s₃, c₄, h₁, h₂, h₃, h₄, -⟩ := edits_round hround
  have k₁ := hv.unifyAxes h₁
  obtain ⟨hg₂, k₂⟩ := sweep_keeps (Q := (Lasting · v)) (wellformed_unifyAxes hg h₁) k₁ h₂
    fun o i s c j s' hi hv => hv.dropReinterpret hi
  obtain ⟨hg₃, k₃⟩ := sweep_keeps (Q := (Lasting · v)) hg₂ k₂ h₃
    fun o i s c j s' hi hv => hv.foldConstant hi
  exact sweep_keeps (Q := (Lasting · v)) hg₃ k₃ h₄
    fun o i s c j s' hi hv => hv.expandSelect hi

end

/-! ## The textures of a compiled graph -/

end Graph

/-- A texture has the shape that is configured for its variable, else the derived one. -/
theorem TextureLayout.shape_of_allocate {α : Type} {g : Graph α} {config : Config}
    {layout : TextureLayout} {w : VarId} {a : TextureAllocation}
    (h : allocate g config = .ok layout) (ha : layout.get? w = some a) :
    a.shape = TextureShape.choose config.textureShapes config.channelMode config.maxTextureSize w
      a.size := by
  obtain ⟨vars, hvars⟩ := reachable_of_allocate h
  obtain ⟨-, t, -, -, -, hshape⟩ := backs_of_allocate h hvars _ (mem_of_get? ha)
  exact hshape

namespace Graph

section

variable {α : Type} [Scalar α] [ScalarText α] {g : Graph α} {config : Config} {s₀ s s' : Supply}
  {backends : List BackendKind} {d : Descriptor α} {v : VarId} {shape : TextureShape}
  {results : List (BackendKind × Except GenerateError (Descriptor α))}

/-- The one texture shape that is configured survives simplification if its variable lasts.
Whatever the variable is, the texture of what it stands for afterwards has that shape if this is
still the variable itself, and a derived shape otherwise. -/
theorem compile_textureShapes (hr : Reached s₀ g) (honly : config.textureShapes = [(v, shape)])
    (h : Gives (g.compile backends config) s results s') (hd : (.webGl, .ok d) ∈ results) :
    ∃ g' r layout, Gives (g.prepare config) s g' r ∧ d.layout = .texture layout ∧
      ∀ w a, g'.resolve v = .ok w → layout.get? w = some a →
        (g.Lasting v → w = v ∧ a.shape = shape) ∧
        a.shape = if w = v then shape
          else TextureShape.derive a.size config.channelMode config.maxTextureSize := by
  obtain ⟨g', r, hprepare, hgenerate⟩ := compile_gives h
  obtain ⟨r₁, r₂, hgen⟩ := hgenerate .webGl d hd
  obtain ⟨layout, -, -, hlayout, -, -, hdlayout, -⟩ := generate_texture hgen
  refine ⟨g', r, layout, hprepare, hdlayout, fun w a hw ha => ?_⟩
  have hshape : a.shape = if w = v then shape
      else TextureShape.derive a.size config.channelMode config.maxTextureSize := by
    rw [TextureLayout.shape_of_allocate hlayout ha, TextureShape.choose, honly, List.lookup_cons]
    by_cases hwv : w = v
    · rw [if_pos hwv, beq_iff_eq.2 hwv]
      rfl
    · rw [if_neg hwv, beq_eq_false_iff_ne.2 hwv]
      rfl
  refine ⟨fun hlasting => ?_, hshape⟩
  obtain ⟨-, ⟨c, hedit⟩, -⟩ := prepare_gives hprepare
  obtain ⟨-, hkept⟩ := hlasting.simplify hr.wellformed hedit
  obtain rfl : v = w := Except.ok.inj (hkept.stands.symm.trans hw)
  exact ⟨rfl, hshape.trans (if_pos rfl)⟩

end

/-- A constant row and its double, both of them outputs. -/
def scaledRow : Graph ℚ where
  slots := #[.live { type := rowType 2, marks := [.output], data := some #[1, 2] } none,
    .live { type := rowType 2, marks := [.tensorwise .channel, .output] } (some ⟨0⟩)]
  nodes := #[some ⟨.pointwise (.affine 2 0), [⟨0⟩], ⟨1⟩⟩]
  declaredOutputs := [⟨0⟩, ⟨1⟩]

/-- Another constant has taken the place of the double. -/
def foldedRow : Graph ℚ where
  slots := #[.live { type := rowType 2, marks := [.output], data := some #[1, 2] } none,
    .replaced ⟨2⟩,
    .live { type := rowType 2, marks := [.output], data := some #[2, 4] } none]
  nodes := #[none]
  declaredOutputs := [⟨0⟩, ⟨1⟩]

/-- What is compiled from it, with textures of these shapes. -/
def rowTextures (row double : TextureShape) : TextureLayout :=
  ⟨[(⟨0⟩, ⟨row, .r, 2, some 0⟩), (⟨2⟩, ⟨double, .r, 2, some 2⟩)]⟩

/-- A column of two texels for one variable. -/
def columnFor (v : VarId) : Config := ({} : Config).withTextureShape v ⟨1, 2⟩

theorem built_scaledRow : Built {} scaledRow := by
  have words : Session true {} [.known 2] ({} : Graph ℚ) := .word (.empty {}) (by decide)
  have made : (⟨rowType 2, [], some #[1, 2]⟩ : Tensor ℚ).MadeFrom [.known 2] {} {} :=
    ⟨by simp [rowType], rfl, fun x hx => Option.some.inj hx ▸ rfl⟩
  let unmarked : Graph ℚ :=
    { slots := #[.live { type := rowType 2, data := some #[1, 2] } none,
        .live { type := rowType 2, marks := [.tensorwise .channel] } (some ⟨0⟩)]
      nodes := scaledRow.nodes }
  have doubled : Gives ((({} : Graph ℚ).addVariable ⟨rowType 2, [], some #[1, 2]⟩).1.addOp
      (.pointwise (.affine 2 0)) [⟨0⟩]) {} (unmarked, ⟨1⟩) {} := by
    unfold Gives
    cbv
  have first := Session.markOutput (v := ⟨0⟩) (.addOp (.addVariable words made) doubled) rfl
  exact ⟨_, .markOutput first (rfl : Graph.markOutput _ ⟨1⟩ = .ok scaledRow)⟩

theorem prepares_scaledRow (v : VarId) :
    Gives (scaledRow.prepare (columnFor v)) {} foldedRow {} := by
  unfold Gives
  cbv

/-- The row keeps its handle, since nothing computes it. So does a variable that is computed from a
leaf without data, here an input that cuts off what it depends on. -/
theorem scaledRow_keeps_shape :
    (Reached {} scaledRow ∧ ∃ d layout a,
      Gives (scaledRow.compile [.webGl] (columnFor ⟨0⟩)) {} [(.webGl, .ok d)] {} ∧
      d.layout = .texture layout ∧ layout.get? ⟨0⟩ = some a ∧ a.shape = ⟨1, 2⟩) ∧
    Reached {} (repeated [⟨1⟩] []) ∧ ∃ d layout a,
      Gives ((repeated [⟨1⟩] []).compile [.webGl] (columnFor ⟨1⟩)) {} [(.webGl, .ok d)] {} ∧
      d.layout = .texture layout ∧ layout.get? ⟨1⟩ = some a ∧ a.shape = ⟨1, 2⟩ := by
  constructor
  · have hcompile : Gives (scaledRow.compile [.webGl] (columnFor ⟨0⟩)) {} [(.webGl, .ok
        ⟨.webGl, [], .texture (rowTextures ⟨1, 2⟩ ⟨2, 1⟩), #[1, 2, 2, 4]⟩)] {} := by
      unfold Gives
      cbv
    have hlasting : scaledRow.Lasting ⟨0⟩ := ⟨rfl, fun o ho => by cases ho⟩
    obtain ⟨g', r, layout, hprepare, hlayout, hshapes⟩ :=
      compile_textureShapes built_scaledRow.reached rfl hcompile (.head _)
    cases hlayout
    obtain ⟨rfl, -⟩ : foldedRow = g' ∧ {} = r := by
      simpa using (prepares_scaledRow ⟨0⟩).symm.trans hprepare
    exact ⟨built_scaledRow.reached, _, _, _, hcompile, rfl, rfl,
      ((hshapes ⟨0⟩ _ rfl rfl).1 hlasting).2⟩
  · have hreached : Reached {} (repeated [⟨1⟩] []) := by
      obtain ⟨ds, hsession⟩ := built_repeated.2.reached
      exact ⟨ds, .induced hsession (rfl : Graph.induced _ [⟨1⟩] [⟨1⟩] = .ok (repeated [⟨1⟩] []))⟩
    have hprepare : Gives ((repeated [⟨1⟩] []).prepare (columnFor ⟨1⟩)) {} (repeated [⟨1⟩] []) {} :=
      rfl
    have hcompile : Gives ((repeated [⟨1⟩] []).compile [.webGl] (columnFor ⟨1⟩)) {} [(.webGl, .ok
        ⟨.webGl, [], .texture ⟨[(⟨1⟩, ⟨⟨1, 2⟩, .r, 1, none⟩)]⟩, #[]⟩)] {} := by
      unfold Gives
      cbv
    have hvaries : (repeated [⟨1⟩] []).Varies ⟨1⟩ :=
      .computed ⟨rfl, ⟨0⟩, rfl, rfl⟩ (.head _) (.leaf (v := ⟨0⟩) rfl rfl)
    have hlasting : (repeated [⟨1⟩] []).Lasting ⟨1⟩ :=
      ⟨rfl, fun o ho => Option.some.inj ho ▸ ⟨hvaries, _, rfl, by decide, by decide⟩⟩
    obtain ⟨g', r, layout, hprepare', hlayout, hshapes⟩ :=
      compile_textureShapes hreached rfl hcompile (.head _)
    cases hlayout
    obtain ⟨rfl, -⟩ : repeated [⟨1⟩] [] = g' ∧ {} = r := by
      simpa using hprepare.symm.trans hprepare'
    exact ⟨hreached, _, _, _, hcompile, rfl, rfl, ((hshapes ⟨1⟩ _ rfl rfl).1 hlasting).2⟩

/-- The double is replaced by a constant. It is reachable and has the only shape that is configured,
and the texture of what it stands for after simplification has another one. -/
theorem scaledRow_loses_shape : Built {} scaledRow ∧
    (columnFor ⟨1⟩).textureShapes = [(⟨1⟩, ⟨1, 2⟩)] ∧
    (∃ vars, scaledRow.reachable = .ok vars ∧ ⟨1⟩ ∈ vars) ∧
    Gives (scaledRow.prepare (columnFor ⟨1⟩)) {} foldedRow {} ∧
    ∃ d layout a, Gives (scaledRow.compile [.webGl] (columnFor ⟨1⟩)) {} [(.webGl, .ok d)] {} ∧
      d.layout = .texture layout ∧ foldedRow.resolve ⟨1⟩ = .ok ⟨2⟩ ∧
      layout.get? ⟨2⟩ = some a ∧ a.shape = ⟨2, 1⟩ := by
  have hcompile : Gives (scaledRow.compile [.webGl] (columnFor ⟨1⟩)) {} [(.webGl, .ok
      ⟨.webGl, [], .texture (rowTextures ⟨2, 1⟩ ⟨2, 1⟩), #[1, 2, 2, 4]⟩)] {} := by
    unfold Gives
    cbv
  exact ⟨built_scaledRow, rfl, ⟨_, rfl, .tail _ (.head _)⟩, prepares_scaledRow ⟨1⟩, _, _, _,
    hcompile, rfl, rfl, rfl, rfl⟩

end Graph

end TensorCompiler
