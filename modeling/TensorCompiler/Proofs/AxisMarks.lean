import Mathlib
import TensorCompiler.Proofs.Histories
/-!
# The axes that tensors are marked with

An operator marks its output with axes of the output's own order. The marks stay what they are when
axes are renamed, so after a renaming a mark may name an axis that is not in the order any more. It
still names the axis as it was called when the tensor was added: the renamings since then lead from
the marked axis to one of the order.

* `Mark.mem_insert`, `Mark.mem_inherit`: the marks after an insertion and an inheritance.
* `Graph.slot?_of_marked`, `Graph.slot?_of_replaced`, `Graph.slot?_of_renamed`: tensors after an
  edit, with their marks.
* `Edit.Turns.tensorwise`: what an edit does to a tensor that is marked with an axis.
* `History.marks_name_axes`: where marks lead, and when they name axes of the order.
-/

namespace TensorCompiler

/-! ## Lists of marks -/

namespace Mark

variable {m m' : Mark} {ms other : List Mark}

@[simp] theorem mem_insert : m ∈ insert m' ms ↔ m = m' ∨ m ∈ ms := by
  unfold insert
  split
  · next h => exact ⟨.inr, fun k => k.elim (fun e => e ▸ h) id⟩
  · rw [List.mem_append, List.mem_singleton, or_comm]

theorem mem_foldl_insert {added : List Mark} :
    m ∈ added.foldl (fun ms m => insert m ms) ms ↔ m ∈ added ∨ m ∈ ms := by
  induction added generalizing ms with
  | nil => simp
  | cons m' added ih =>
    rw [List.foldl_cons, ih, mem_insert, List.mem_cons]
    tauto

@[simp] theorem mem_inherit :
    m ∈ inherit other ms ↔ m ∈ other ∧ m.isRuntime = true ∨ m ∈ ms := by
  rw [inherit, mem_foldl_insert, List.mem_filter]

end Mark

/-! ## Tensors after an edit -/

namespace Graph

variable {α : Type} {g h : Graph α} {v w a b : VarId} {t x y : Tensor α} {p q r : Option OpId}
  {marks : List Mark}

/-- A declared output is marked as one, and no other tensor changes. -/
theorem slot?_of_marked (hm : g.markOutput v = .ok h) (hw : g.resolve v = .ok w) {u : VarId}
    (hu : h.slot? u = some (.live t p)) :
    ∃ t', g.slot? u = some (.live t' p) ∧ t = if u = w then t'.mark .output else t' := by
  obtain ⟨w', hw', hs, -⟩ := markOutput_ok hm
  obtain rfl := Except.ok.inj (hw.symm.trans hw')
  have hu : (g.modifyTensor w fun t => t.mark .output).slots[u.index]? = some (.live t p) := hs ▸ hu
  rw [modifyTensor, Array.getElem?_modify] at hu
  split at hu
  · next e =>
    rcases hx : g.slots[u.index]? with _ | ⟨t', q⟩ | _ <;> rw [hx] at hu <;> cases hu
    exact ⟨t', hx, (if_pos (VarId.eq_of_index e.symm)).symm⟩
  · next e => exact ⟨t, hu, (if_neg fun h => e (congrArg VarId.index h.symm)).symm⟩

/-- The variable that takes the place of another one inherits marks, and no other tensor changes. -/
theorem slot?_of_redirected (hab : a ≠ b) (ha : g.slot? a = some (.live x p))
    (hb : g.slot? b = some (.live y q)) (hv : (g.redirect a b marks).slot? v = some (.live t r)) :
    v ≠ a ∧ ∃ t', g.slot? v = some (.live t' r) ∧
      t = if v = b then { t' with marks := Mark.inherit marks t'.marks } else t' := by
  obtain ⟨hva, -⟩ := slot?_of_redirect hab ha hb hv
  refine ⟨hva, ?_⟩
  by_cases hvb : v = b
  · subst hvb
    rw [slot?_redirect_new hab hb] at hv
    cases hv
    exact ⟨y, hb, (if_pos rfl).symm⟩
  · rw [slot?_redirect_other hva hvb] at hv
    exact ⟨t, hv, (if_neg hvb).symm⟩

/-- A replacement leaves orders as they are, and adds no marks with axes. -/
theorem slot?_of_replaced {old new : VarId} (hr : g.replaceVariable old new = .ok h)
    (hv : h.slot? v = some (.live t p)) : ∃ t', g.slot? v = some (.live t' p) ∧
      (∀ a, .tensorwise a ∈ t.marks → .tensorwise a ∈ t'.marks) ∧ t.type = t'.type := by
  obtain ⟨b, c, -, -, ⟨-, rfl⟩ | ⟨hbc, x, y, hx, hy, -, -, rfl⟩⟩ := replaceVariable_ok_iff.1 hr
  · exact ⟨t, hv, fun _ ha => ha, rfl⟩
  · obtain ⟨q, hx⟩ := tensor_ok_iff.1 hx
    obtain ⟨r, hy⟩ := tensor_ok_iff.1 hy
    obtain ⟨-, t', hv', rfl⟩ := slot?_of_redirected hbc hx hy hv
    refine ⟨t', hv', fun a ha => ?_, by split <;> rfl⟩
    split at ha
    · simpa [Mark.isRuntime] using ha
    · exact ha

/-- A renaming of axes leaves all marks as they are. -/
theorem slot?_of_renamed [Scalar α] {f : Axis → Axis} {c : Bool}
    (hf : g.renameAxes f = (h, .ok c)) (hv : h.slot? v = some (.live t p)) :
    ∃ t', g.slot? v = some (.live t' p) ∧ t.marks = t'.marks ∧
      t.type.order.axes = t'.type.order.axes.map f := by
  obtain rfl : (g.renameAxes f).1 = h := congrArg Prod.fst hf
  obtain ⟨x, hx, -⟩ := slot?_of_renameAxes hv
  obtain ⟨y, b, hy, hxy⟩ := (renameAxes_ok (congrArg Prod.snd hf)).1 v x hx
  obtain rfl := Option.some.inj (hy.symm.trans hv)
  cases x with
  | replaced _ => cases hxy
  | live t' q =>
    simp only [Slot.renameAxes] at hxy
    split at hxy
    · next type htype =>
      cases hxy
      exact ⟨t', hx, rfl, (TensorType.rename?_eq_some htype).2⟩
    · cases hxy

end Graph

/-! ## Marked axes -/

/-- A constant that takes the place of a tensor inherits its runtime marks and has no others. -/
theorem Tensor.marks_of_fold {α : Type} {t constant : Tensor α} {data : Array α}
    (h : t.fold data = .ok constant) : constant.marks = Mark.inherit t.marks [] := by
  unfold Tensor.fold Tensor.withData at h
  obtain ⟨size, -, h⟩ := bind_ok_iff.1 h
  split at h
  · cases h
    rfl
  · cases h

/-- The axes that a tensor is marked with are axes of its order. -/
def Tensor.MarksOwn {α : Type} (t : Tensor α) : Prop :=
  ∀ a, .tensorwise a ∈ t.marks → a ∈ t.type.order.axes

theorem Operator.marksOwn_of_inferTensor {α : Type} {op : Operator α} {types : List TensorType}
    {t : Tensor α} {s s' : Supply} (h : Gives (op.inferTensor types) s t s') : t.MarksOwn := by
  obtain ⟨type, -, rfl⟩ := Graph.inferTensor_gives_iff.1 h
  intro a ha
  have ha : a ∈ op.tensorwiseAxes type := by simpa using ha
  cases op with
  | pointwise f => exact ha
  | resize a₁ m₁ a₂ m₂ => exact (List.mem_filter.1 ha).1
  | tile _ => cases ha
  | slice _ _ _ => cases ha
  | reinterpret _ _ => cases ha

namespace Edit

variable {α : Type}

/-- The tensor that a client adds. -/
def added? : Edit α → Option (Tensor α)
  | addVariable t | addInput t _ => some t
  | _ => none

/-- How the edit renames axes. -/
def renames : Edit α → Axis → Axis
  | renameAxes f => f
  | unifyAxes classes => classes
  | _ => id

section

variable [Scalar α] {e : Edit α} {g h : Graph α} {v : VarId} {t : Tensor α} {p : Option OpId}
  {a : Axis}

/-- A marked tensor of the graph that an edit leaves was marked before, and its order has been
renamed by the edit, or it is new and marked with an axis of its order. -/
theorem Turns.tensorwise (k : e.Turns g h) (hadded : ∀ t, e.added? = some t → t.MarksOwn)
    (hv : h.slot? v = some (.live t p)) (ha : .tensorwise a ∈ t.marks) :
    a ∈ t.type.order.axes ∨ ∃ t' p', g.slot? v = some (.live t' p') ∧ .tensorwise a ∈ t'.marks ∧
      t.type.order.axes = t'.type.order.axes.map e.renames := by
  have kept : ∀ {t' p'}, g.slot? v = some (.live t' p') → .tensorwise a ∈ t'.marks →
      t.type = t'.type → ∃ t' p', g.slot? v = some (.live t' p') ∧ .tensorwise a ∈ t'.marks ∧
        t.type.order.axes = t'.type.order.axes.map id := fun hv ha htype =>
    ⟨_, _, hv, ha, by rw [htype, List.map_id]⟩
  cases e with
  | addVariable t₀ =>
    obtain rfl : (g.addVariable t₀).1 = h := k
    rcases Graph.slot?_of_push rfl hv with hv | ⟨-, ⟨⟩⟩
    · exact .inr (kept hv ha rfl)
    · exact .inl (hadded t rfl a ha)
  | addInput t₀ w =>
    obtain rfl : (g.addInput t₀).1 = h := congrArg Prod.fst k
    rcases Graph.slot?_of_push (t := t₀.mark .input) rfl hv with hv | ⟨-, ⟨⟩⟩
    · exact .inr (kept hv ha rfl)
    · exact .inl (hadded t₀ rfl a (by simpa [Tensor.mark] using ha))
  | markOutput w =>
    obtain ⟨u, hu, -⟩ := Graph.markOutput_ok k
    obtain ⟨t', hv', rfl⟩ := Graph.slot?_of_marked k hu hv
    refine .inr (kept hv' ?_ (by split <;> rfl))
    split at ha
    · simpa [Tensor.mark] using ha
    · exact ha
  | addOp op ins =>
    obtain ⟨w, s, s', hop⟩ := k
    obtain ⟨ws, ts, t₀, -, -, hinfer, rfl, -⟩ := Graph.addOp_gives_iff.1 hop
    rcases Graph.slot?_of_push rfl hv with hv | ⟨-, ⟨⟩⟩
    · exact .inr (kept hv ha rfl)
    · exact .inl (Operator.marksOwn_of_inferTensor hinfer a ha)
  | removeOperator o =>
    obtain ⟨node, hr⟩ := k
    obtain ⟨-, rfl⟩ := Graph.removeOperator_ok_iff.1 hr
    rcases Graph.slot?_of_detach hv with ⟨-, hv⟩ | ⟨-, -, q, hv⟩
    · exact .inr (kept hv ha rfl)
    · exact .inr (kept hv ha rfl)
  | replaceVariable old new =>
    obtain ⟨t', hv', hmarks, htype⟩ := Graph.slot?_of_replaced k hv
    exact .inr (kept hv' (hmarks a ha) htype)
  | renameAxes f =>
    obtain ⟨b, hf⟩ := k
    obtain ⟨t', hv', hmarks, haxes⟩ := Graph.slot?_of_renamed hf hv
    exact .inr ⟨t', p, hv', hmarks ▸ ha, haxes⟩
  | induced ins outs =>
    obtain ⟨_, _, -, -, rfl⟩ := Graph.induced_ok k
    exact .inr (kept hv ha rfl)
  | unifyAxes classes =>
    obtain ⟨-, b, hf⟩ := k
    obtain ⟨t', hv', hmarks, haxes⟩ := Graph.slot?_of_renamed hf hv
    exact .inr ⟨t', p, hv', hmarks ▸ ha, haxes⟩
  | fold o constant =>
    obtain ⟨node, x, data, -, -, hfold, hr⟩ := k
    obtain ⟨t', hv', hmarks, htype⟩ := Graph.slot?_of_replaced hr hv
    have ha' := hmarks a ha
    rcases Graph.slot?_of_push rfl hv' with hv' | ⟨-, ⟨⟩⟩
    · rcases Graph.slot?_of_detach hv' with ⟨-, hv'⟩ | ⟨-, -, q, hv'⟩
      · exact .inr (kept hv' ha' htype)
      · exact .inr (kept hv' ha' htype)
    · rw [Tensor.marks_of_fold hfold] at ha'
      simp [Mark.isRuntime] at ha'

end

/-- The renamings of edits, one after the other. -/
def renamesAll (es : List (Edit α)) (a : Axis) : Axis := es.foldl (fun b e => e.renames b) a

theorem renamesAll_of_fixed {es : List (Edit α)} {a : Axis} (h : ∀ e ∈ es, e.renames a = a) :
    renamesAll es a = a := by
  induction es with
  | nil => rfl
  | cons e es ih =>
    obtain ⟨he, hes⟩ := List.forall_mem_cons.1 h
    rw [renamesAll, List.foldl_cons, he]
    exact ih hes

end Edit

/-! ## The main result -/

section

variable {α : Type} [Scalar α] {g h : Graph α} {es : List (Edit α)} {v : VarId} {t : Tensor α}
  {a : Axis}

theorem Trace.sound_of_mem {classes : AxisClasses} (k : Trace g es h)
    (hc : .unifyAxes classes ∈ es) : classes.Sound := by
  induction k with
  | refl => cases hc
  | step _ hturn ih =>
    rcases List.mem_append.1 hc with hc | hc
    · exact ih hc
    · obtain rfl := List.mem_singleton.1 hc
      exact hturn.1

/-- What marks a tensor was an axis of its order when the tensor was added. -/
theorem Trace.renamed_mark (k : Trace {} es g)
    (hadded : ∀ t ∈ es.filterMap Edit.added?, t.MarksOwn) {p : Option OpId}
    (hv : g.slot? v = some (.live t p)) (ha : .tensorwise a ∈ t.marks) :
    ∃ since axes : List _, since <:+ es ∧ a ∈ axes ∧
      t.type.order.axes = axes.map (Edit.renamesAll since) := by
  generalize hstart : ({} : Graph α) = start at k
  induction k generalizing t p with
  | refl =>
    subst hstart
    exact absurd (Graph.slot?_lt hv) (Nat.not_lt_zero _)
  | @step _ _ es e _ hturn ih =>
    rw [List.filterMap_append, List.forall_mem_append] at hadded
    have hnew : ∀ t, e.added? = some t → t.MarksOwn := fun t ht => hadded.2 t (by simp [ht])
    rcases hturn.tensorwise hnew hv ha with hown | ⟨t', p', hv', ha', haxes⟩
    · exact ⟨[], t.type.order.axes, List.nil_suffix, hown, (List.map_id _).symm⟩
    · obtain ⟨since, axes, ⟨before, rfl⟩, hmem, horder⟩ := ih hadded.1 hv' ha'
      refine ⟨since ++ [e], axes, ⟨before, (List.append_assoc ..).symm⟩, hmem, ?_⟩
      rw [haxes, horder, List.map_map]
      refine List.map_congr_left fun b _ => ?_
      rw [Function.comp_apply, Edit.renamesAll, Edit.renamesAll, List.foldl_append]
      rfl

/-- A mark leads to an axis of the order by the renamings since the tensor was added. So it names an
axis of the order if no renaming moves the marked axis. The passes move open axes only, so if the
marked axis is a named one, it is enough that no client renames it. -/
theorem History.marks_name_axes (k : History es g)
    (hadded : ∀ t ∈ es.filterMap Edit.added?, t.MarksOwn) (ht : g.tensor v = .ok t)
    (ha : .tensorwise a ∈ t.marks) :
    (∃ since axes : List _, since <:+ es ∧ a ∈ axes ∧
      t.type.order.axes = axes.map (Edit.renamesAll since)) ∧
    ((∀ e ∈ es, e.renames a = a) → a ∈ t.type.order.axes) ∧
    (a.isFree = false → (∀ f, .renameAxes f ∈ es → f a = a) → a ∈ t.type.order.axes) := by
  obtain ⟨p, hv⟩ := Graph.tensor_ok_iff.1 ht
  obtain ⟨since, axes, hsuffix, hmem, horder⟩ := k.trace.renamed_mark hadded hv ha
  have kept : (∀ e ∈ es, e.renames a = a) → a ∈ t.type.order.axes := by
    intro hfixed
    rw [horder, List.mem_map]
    exact ⟨a, hmem, Edit.renamesAll_of_fixed fun e he => hfixed e (hsuffix.subset he)⟩
  refine ⟨⟨since, axes, hsuffix, hmem, horder⟩, kept, fun hnamed hcalls => kept fun e he => ?_⟩
  cases e with
  | renameAxes f => exact hcalls f he
  | unifyAxes classes => exact (k.trace.sound_of_mem he).named a hnamed
  | _ => rfl

end

/-- One element along an axis. -/
def single (a : Axis) : TensorType := ⟨[.known 1], ⟨[a], List.nodup_singleton _⟩, rfl⟩

/-- An input with one axis, and a multiple of it that is marked with an open axis. -/
def scaled (a : Axis) : Graph ℚ where
  slots := #[.live { type := single a, marks := [.input] } none,
    .live { type := single a, marks := [.tensorwise (.free 16)] } (some ⟨0⟩)]
  nodes := #[some ⟨.pointwise (.affine 2 0), [⟨0⟩], ⟨1⟩⟩]
  declaredInputs := [⟨0⟩]

/-- The open axis is the batch axis. -/
def openToBatch (a : Axis) : Axis := if a = .free 16 then .batch else a

/-- How a client builds the multiple. -/
def scaling : List (Edit ℚ) :=
  [.addInput { type := single (.free 16) } ⟨0⟩, .addOp (.pointwise (.affine 2 0)) [⟨0⟩]]

theorem history_scaled : History scaling (scaled (.free 16)) := by
  have input : History ([] ++ [.addInput { type := single (.free 16) } ⟨0⟩])
      (({} : Graph ℚ).addInput { type := single (.free 16) }).1 :=
    .call .empty trivial rfl
  have hop : Gives ((({} : Graph ℚ).addInput { type := single (.free 16) }).1.addOp
      (.pointwise (.affine 2 0)) [⟨0⟩]) {} (scaled (.free 16), ⟨1⟩) {} := by
    unfold Gives
    cbv
  exact .call input trivial ⟨_, _, _, hop⟩

theorem marksOwn_scaling : ∀ t ∈ scaling.filterMap Edit.added?, t.MarksOwn := by
  intro t ht a ha
  obtain rfl := List.mem_singleton.1 ht
  cases ha

/-- Before the open axis is renamed, the mark names an axis of the order. -/
theorem scaled_marked : History scaling (scaled (.free 16)) ∧
    ∃ t, (scaled (.free 16)).tensor ⟨1⟩ = .ok t ∧ .tensorwise (.free 16) ∈ t.marks ∧
      .free 16 ∈ t.type.order.axes := by
  refine ⟨history_scaled, _, rfl, .head _, ?_⟩
  refine (history_scaled.marks_name_axes marksOwn_scaling (v := ⟨1⟩) rfl (.head _)).2.1 ?_
  intro e he
  simp only [scaling, List.mem_cons, List.not_mem_nil, or_false] at he
  rcases he with rfl | rfl
  · rfl
  · rfl

/-- Afterwards, it does not. -/
theorem scaled_marked_renamed :
    History (scaling ++ [.renameAxes openToBatch]) (scaled .batch) ∧
      (∀ t ∈ (scaling ++ [Edit.renameAxes openToBatch]).filterMap Edit.added?, t.MarksOwn) ∧
      ∃ v t a, (scaled .batch).tensor v = .ok t ∧ .tensorwise a ∈ t.marks ∧
        a ∉ t.type.order.axes := by
  have hrename : (scaled (.free 16)).renameAxes openToBatch = (scaled .batch, .ok true) := by cbv
  refine ⟨history_scaled.call trivial ⟨true, hrename⟩, ?_, ⟨1⟩, _, .free 16, rfl, .head _, ?_⟩
  · rw [List.filterMap_append]
    exact List.forall_mem_append.2 ⟨marksOwn_scaling, List.forall_mem_nil _⟩
  · decide

end TensorCompiler
