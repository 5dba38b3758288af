import TensorCompiler.Proofs.Edits
import TensorCompiler.Proofs.Shapes
/-!
# Sessions of a client

A client builds graphs by calls: it makes dimensions, tensors from them, and edits a graph. A
`Session` is any such sequence of calls. Calls that fail leave the graph as it was, but for a
renaming of axes, which keeps the changes made before the failure; in a strict session there is no
failed renaming.

* `Reached`, `Built`: graphs that some session, or some strict session, ends with.
* `Session.wellformed`: the arena of every reached graph is wellformed.
* `Session.named`: all dimensions at hand and in the graph have names in one table.
* `Session.allTensors`: a property that all new tensors have is a property of all tensors.
* `Session.sound`: tensors of known shape fit 64-bit words, and constants have the size of their
  shape.
* `Session.checked`: all shapes have passed the check.
-/

namespace TensorCompiler

/-- A tensor that a client makes: its dimensions are at hand, the check of its shape succeeds, and
constant data has one element for each coordinate. -/
structure Tensor.MadeFrom {α : Type} (t : Tensor α) (ds : List Dim) (s s' : Supply) : Prop where
  dims : ∀ d ∈ t.type.shape, d ∈ ds
  make : Gives (TensorType.make t.type.shape t.type.order) s t.type s'
  data : ∀ x, t.data = some x → t.type.concreteSize = .ok x.size

/-- What a client can arrive at by calls: the supply of symbols, the dimensions it has seen, and
the graph. -/
inductive Session {α : Type} [Scalar α] (strict : Bool) : Supply → List Dim → Graph α → Prop
  | empty (s : Supply) : Session strict s [] {}
  /-- Symbols may have been used up elsewhere, and by calls that failed. -/
  | later {s s' ds g} : Session strict s ds g → s.next ≤ s'.next → Session strict s' ds g
  | word {s ds g n} : Session strict s ds g → n < wordLimit → Session strict s (.known n :: ds) g
  | symbol {s s' ds g label d} : Session strict s ds g → Makes (Dim.ofLabel label) s d s' →
      Session strict s' (d :: ds) g
  | arith {s s' ds g op x y d} : Session strict s ds g → x ∈ ds → y ∈ ds →
      Makes (Dim.combine op x y) s d s' → Session strict s' (d :: ds) g
  /-- Reads a dimension of a tensor. -/
  | dim {s ds g v t d} : Session strict s ds g → g.tensor v = .ok t → d ∈ t.type.shape →
      Session strict s (d :: ds) g
  | addVariable {s s' ds g t} : Session strict s ds g → t.MadeFrom ds s s' →
      Session strict s' ds (g.addVariable t).1
  | addInput {s s' ds g t} : Session strict s ds g → t.MadeFrom ds s s' →
      Session strict s' ds (g.addInput t).1
  | markOutput {s ds g g' v} : Session strict s ds g → g.markOutput v = .ok g' →
      Session strict s ds g'
  | addOp {s s' ds g g' op ins v} : Session strict s ds g → Gives (g.addOp op ins) s (g', v) s' →
      Session strict s' ds g'
  | removeOperator {s ds g g' o node} : Session strict s ds g →
      g.removeOperator o = .ok (g', node) → Session strict s ds g'
  | replaceVariable {s ds g g' old new} : Session strict s ds g →
      g.replaceVariable old new = .ok g' → Session strict s ds g'
  | renameAxes {s ds g} (f : Axis → Axis) : Session strict s ds g →
      (strict = true → ∃ b, (g.renameAxes f).2 = .ok b) → Session strict s ds (g.renameAxes f).1
  | induced {s ds g g' ins outs} : Session strict s ds g → g.induced ins outs = .ok g' →
      Session strict s ds g'

theorem Graph.wellformed_empty {α : Type} : ({} : Graph α).Wellformed where
  leads v hv := absurd hv (Nat.not_lt_zero _)
  produced v t o hv := absurd (Graph.slot?_lt hv) (Nat.not_lt_zero _)
  output o node ho := by simp [Graph.node?] at ho
  inputs o node ho := by simp [Graph.node?] at ho
  declaredInputs v hv := by cases hv
  declaredOutputs v hv := by cases hv

section

variable {α : Type} [Scalar α]

/-- Some session ends with this graph. -/
def Reached (s : Supply) (g : Graph α) : Prop := ∃ ds, Session false s ds g

/-- Some session without a failed renaming ends with this graph. -/
def Built (s : Supply) (g : Graph α) : Prop := ∃ ds, Session true s ds g

theorem Session.relax {strict : Bool} {s : Supply} {ds : List Dim} {g : Graph α}
    (h : Session strict s ds g) : Session false s ds g := by
  induction h with
  | empty s => exact .empty s
  | later _ hs ih => exact .later ih hs
  | word _ hn ih => exact .word ih hn
  | symbol _ hd ih => exact .symbol ih hd
  | arith _ hx hy hd ih => exact .arith ih hx hy hd
  | dim _ ht hd ih => exact .dim ih ht hd
  | addVariable _ ht ih => exact .addVariable ih ht
  | addInput _ ht ih => exact .addInput ih ht
  | markOutput _ h ih => exact .markOutput ih h
  | addOp _ h ih => exact .addOp ih h
  | removeOperator _ h ih => exact .removeOperator ih h
  | replaceVariable _ h ih => exact .replaceVariable ih h
  | renameAxes f _ _ ih => exact .renameAxes f ih (fun h => by cases h)
  | induced _ h ih => exact .induced ih h

theorem Built.reached {s : Supply} {g : Graph α} (h : Built s g) : Reached s g :=
  let ⟨ds, h⟩ := h
  ⟨ds, h.relax⟩

theorem Session.wellformed {strict : Bool} {s : Supply} {ds : List Dim} {g : Graph α}
    (h : Session strict s ds g) : g.Wellformed := by
  induction h with
  | empty s => exact Graph.wellformed_empty
  | later _ _ ih => exact ih
  | word _ _ ih => exact ih
  | symbol _ _ ih => exact ih
  | arith _ _ _ _ ih => exact ih
  | dim _ _ _ ih => exact ih
  | addVariable _ _ ih => exact Graph.wellformed_addVariable ih _
  | addInput _ _ ih => exact Graph.wellformed_addInput ih _
  | markOutput _ h ih => exact Graph.wellformed_markOutput ih h
  | addOp _ h ih => exact Graph.wellformed_addOp ih h
  | removeOperator _ h ih => exact Graph.wellformed_removeOperator ih h
  | replaceVariable _ h ih => exact Graph.wellformed_replaceVariable ih h
  | renameAxes f _ _ ih => exact Graph.wellformed_renameAxes ih f
  | induced _ h ih => exact Graph.wellformed_induced ih h

theorem Reached.wellformed {s : Supply} {g : Graph α} (h : Reached s g) : g.Wellformed :=
  let ⟨_, h⟩ := h
  h.wellformed

end

/-! ## What the tensors of a graph are like -/

namespace Graph

variable {α : Type}

/-- Every live tensor has a shape and data like this. -/
def AllTensors (P : List Dim → Option (Array α) → Prop) (g : Graph α) : Prop :=
  ∀ v t p, g.slot? v = some (.live t p) → P t.type.shape t.data

variable {P Q : List Dim → Option (Array α) → Prop} {g g' : Graph α}

theorem AllTensors.mono (h : g.AllTensors P) (hPQ : ∀ ds d, P ds d → Q ds d) : g.AllTensors Q :=
  fun v t p hv => hPQ _ _ (h v t p hv)

theorem allTensors_push {t : Tensor α} {p : Option OpId} (h : g.AllTensors P)
    (hs : g'.slots = g.slots.push (.live t p)) (ht : P t.type.shape t.data) :
    g'.AllTensors P := by
  intro v u q hv
  rcases slot?_of_push hs hv with hv | ⟨-, e⟩
  · exact h v u q hv
  · cases e
    exact ht

theorem allTensors_markOutput {v : VarId} (h : g.AllTensors P) (hm : g.markOutput v = .ok g') :
    g'.AllTensors P := by
  intro u t p hu
  obtain ⟨t', hu', ht, hd⟩ := slot?_of_markOutput hm hu
  rw [ht, hd]
  exact h u t' p hu'

theorem allTensors_detach {o : OpId} {w : VarId} (h : g.AllTensors P) :
    (g.detach o w).AllTensors P := by
  intro v t p hv
  rcases slot?_of_detach hv with ⟨-, hv⟩ | ⟨-, -, q, hv⟩
  · exact h v t p hv
  · exact h v t q hv

theorem allTensors_replaceVariable {old new : VarId} (h : g.AllTensors P)
    (hr : g.replaceVariable old new = .ok g') : g'.AllTensors P := by
  intro v t p hv
  obtain ⟨t', hv', ht, hd⟩ := slot?_of_replaceVariable hr hv
  rw [ht, hd]
  exact h v t' p hv'

theorem allTensors_renameAxes [Scalar α] (f : Axis → Axis) (h : g.AllTensors P) :
    (g.renameAxes f).1.AllTensors P := by
  intro v t p hv
  obtain ⟨x, hx, rfl | ⟨b, hb⟩⟩ := slot?_of_renameAxes hv
  · exact h v t p hx
  · obtain ⟨u, rfl, hu, hd⟩ := Slot.renameAxes_live hb
    rw [hd, (TensorType.rename?_eq_some hu).1]
    exact h v u p hx

theorem allTensors_induced {ins outs : List VarId} (h : g.AllTensors P)
    (hi : g.induced ins outs = .ok g') : g'.AllTensors P := by
  obtain ⟨ins', outs', -, -, rfl⟩ := induced_ok hi
  exact h

end Graph

section

variable {α : Type}

/-- All dimensions at hand and in the graph have names in one table. -/
structure Covers (σ : Names) (s : Supply) (ds : List Dim) (g : Graph α) : Prop where
  dims : ∀ d ∈ ds, d.Named σ s.next
  tensors : g.AllTensors fun shape _ => ∀ d ∈ shape, d.Named σ s.next

theorem Covers.grow {σ τ : Names} {s s' : Supply} {ds : List Dim} {g : Graph α}
    (h : Covers σ s ds g) (k : Grows σ s τ s') : Covers τ s' ds g :=
  ⟨fun d hd => k.named (h.dims d hd), h.tensors.mono fun _ _ hn d hd => k.named (hn d hd)⟩

theorem Covers.cons {σ : Names} {s : Supply} {d : Dim} {ds : List Dim} {g : Graph α}
    (h : Covers σ s ds g) (hd : d.Named σ s.next) : Covers σ s (d :: ds) g :=
  ⟨List.forall_mem_cons.2 ⟨hd, h.dims⟩, h.tensors⟩

theorem Covers.addTensor {σ : Names} {s s' : Supply} {ds : List Dim} {g g' : Graph α}
    {t t' : Tensor α} {p : Option OpId} (h : Covers σ s ds g) (ht : t.MadeFrom ds s s')
    (hs : g'.slots = g.slots.push (.live t' p)) (e : t'.type = t.type) :
    ∃ τ, Covers τ s' ds g' := by
  obtain ⟨τ, k, hn⟩ := named_make (fun d hd => h.dims d (ht.dims d hd)) ht.make
  have h' := h.grow k
  exact ⟨τ, h'.dims, Graph.allTensors_push h'.tensors hs (e ▸ hn)⟩

theorem Covers.inputTypes {σ : Names} {s : Supply} {ds : List Dim} {g : Graph α}
    (h : Covers σ s ds g) {vs : List VarId} {ts : List (Tensor α)} (hts : g.tensors vs = .ok ts) :
    ∀ x ∈ ts.map (·.type), x.Named σ s.next := by
  rw [Graph.tensors, mapM_ok_iff] at hts
  induction hts with
  | nil =>
    intro x hx
    cases hx
  | cons ht _ ih =>
    obtain ⟨p, hv⟩ := Graph.tensor_ok_iff.1 ht
    intro x hx
    rcases List.mem_cons.1 hx with rfl | hx
    · exact h.tensors _ _ p hv
    · exact ih x hx

theorem Session.named [Scalar α] {strict : Bool} {s : Supply} {ds : List Dim} {g : Graph α}
    (h : Session strict s ds g) : ∃ σ, Covers σ s ds g := by
  induction h with
  | empty s =>
    refine ⟨fun _ => .known 0, ⟨fun d hd => by simp at hd, fun v t p hv => ?_⟩⟩
    exact absurd (Graph.slot?_lt hv) (Nat.not_lt_zero _)
  | later _ hs ih =>
    obtain ⟨σ, h⟩ := ih
    exact ⟨σ, h.grow (.of_le σ hs)⟩
  | word _ _ ih =>
    obtain ⟨σ, h⟩ := ih
    exact ⟨σ, h.cons (Dim.named_known σ _ _)⟩
  | symbol _ hd ih =>
    obtain ⟨σ, h⟩ := ih
    obtain ⟨τ, k, hn⟩ := named_ofLabel (σ := σ) hd
    exact ⟨τ, (h.grow k).cons hn⟩
  | arith _ hx hy hd ih =>
    obtain ⟨σ, h⟩ := ih
    obtain ⟨τ, k, hn⟩ := named_combine (h.dims _ hx) (h.dims _ hy) hd
    exact ⟨τ, (h.grow k).cons hn⟩
  | dim _ ht hd ih =>
    obtain ⟨σ, h⟩ := ih
    obtain ⟨p, hv⟩ := Graph.tensor_ok_iff.1 ht
    exact ⟨σ, h.cons (h.tensors _ _ p hv _ hd)⟩
  | addVariable _ ht ih =>
    obtain ⟨σ, h⟩ := ih
    exact h.addTensor ht rfl rfl
  | addInput _ ht ih =>
    obtain ⟨σ, h⟩ := ih
    exact h.addTensor ht rfl rfl
  | markOutput _ hm ih =>
    obtain ⟨σ, h⟩ := ih
    exact ⟨σ, h.dims, Graph.allTensors_markOutput h.tensors hm⟩
  | addOp _ hop ih =>
    obtain ⟨σ, h⟩ := ih
    obtain ⟨ws, ts, t, -, hts, hi, rfl, -⟩ := Graph.addOp_gives_iff.1 hop
    obtain ⟨type, hinf, rfl⟩ := Graph.inferTensor_gives_iff.1 hi
    obtain ⟨τ, k, hn⟩ := named_infer (h.inputTypes hts) hinf
    have h' := h.grow k
    exact ⟨τ, h'.dims, Graph.allTensors_push h'.tensors rfl hn⟩
  | removeOperator _ hr ih =>
    obtain ⟨σ, h⟩ := ih
    obtain ⟨-, rfl⟩ := Graph.removeOperator_ok_iff.1 hr
    exact ⟨σ, h.dims, Graph.allTensors_detach h.tensors⟩
  | replaceVariable _ hr ih =>
    obtain ⟨σ, h⟩ := ih
    exact ⟨σ, h.dims, Graph.allTensors_replaceVariable h.tensors hr⟩
  | renameAxes f _ _ ih =>
    obtain ⟨σ, h⟩ := ih
    exact ⟨σ, h.dims, Graph.allTensors_renameAxes f h.tensors⟩
  | induced _ hi ih =>
    obtain ⟨σ, h⟩ := ih
    exact ⟨σ, h.dims, Graph.allTensors_induced h.tensors hi⟩

/-- What holds of all tensors that a client makes or an operator computes holds of all tensors of a
graph. -/
theorem Session.allTensors [Scalar α] {P : List Dim → Option (Array α) → Prop}
    (hmade : ∀ (t : Tensor α) ds s s', t.MadeFrom ds s s' → P t.type.shape t.data)
    (hcomputed : ∀ (op : Operator α) types t s s', Gives (op.infer types) s t s' → P t.shape none)
    {strict : Bool} {s : Supply} {ds : List Dim} {g : Graph α} (h : Session strict s ds g) :
    g.AllTensors P := by
  induction h with
  | empty s => exact fun v t p hv => absurd (Graph.slot?_lt hv) (Nat.not_lt_zero _)
  | later _ _ ih => exact ih
  | word _ _ ih => exact ih
  | symbol _ _ ih => exact ih
  | arith _ _ _ _ ih => exact ih
  | dim _ _ _ ih => exact ih
  | addVariable _ ht ih => exact Graph.allTensors_push ih rfl (hmade _ _ _ _ ht)
  | addInput _ ht ih =>
    have hP := hmade _ _ _ _ ht
    exact Graph.allTensors_push ih rfl hP
  | markOutput _ hm ih => exact Graph.allTensors_markOutput ih hm
  | addOp _ hop ih =>
    obtain ⟨ws, ts, t, -, -, hi, rfl, -⟩ := Graph.addOp_gives_iff.1 hop
    obtain ⟨type, hinf, rfl⟩ := Graph.inferTensor_gives_iff.1 hi
    exact Graph.allTensors_push ih rfl (hcomputed _ _ _ _ _ hinf)
  | removeOperator _ hr ih =>
    obtain ⟨-, rfl⟩ := Graph.removeOperator_ok_iff.1 hr
    exact Graph.allTensors_detach ih
  | replaceVariable _ hr ih => exact Graph.allTensors_replaceVariable ih hr
  | renameAxes f _ _ ih => exact Graph.allTensors_renameAxes f ih
  | induced _ hi ih => exact Graph.allTensors_induced ih hi

/-- Known shapes fit words, and constants have one element for each coordinate. -/
def Graph.Sound (g : Graph α) : Prop :=
  g.AllTensors fun shape data => Sized shape ∧
    ∀ x, data = some x → ∃ ns : List Nat, shape = ns.map .known ∧ x.size = ns.prod

theorem Session.sound [Scalar α] {strict : Bool} {s : Supply} {ds : List Dim} {g : Graph α}
    (h : Session strict s ds g) : g.Sound :=
  h.allTensors
    (fun _ _ _ _ ht =>
      ⟨(checked_of_make ht.make).sized, fun x hx => concreteSize_ok_iff.1 (ht.data x hx)⟩)
    fun _ _ _ _ _ hinf => ⟨(checked_infer hinf).sized, fun x hx => by cases hx⟩

/-- All shapes of a graph have passed the check. -/
theorem Session.checked [Scalar α] {strict : Bool} {s : Supply} {ds : List Dim} {g : Graph α}
    (h : Session strict s ds g) : g.AllTensors fun shape _ => Checked shape :=
  h.allTensors (fun _ _ _ _ ht => checked_of_make ht.make) fun _ _ _ _ _ => checked_infer

end

end TensorCompiler
