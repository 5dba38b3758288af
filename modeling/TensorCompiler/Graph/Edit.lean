import TensorCompiler.Graph.Basic
/-!
# Building and editing graphs

Additions never move what is there: variables and operators get the next place of their arena.
Replacing a variable redirects its handle, and removing an operator leaves its output without a
producer.
-/

namespace TensorCompiler

namespace Slot

variable {α : Type}

/-- Changes the tensor of a live place. -/
def mapTensor (f : Tensor α → Tensor α) : Slot α → Slot α
  | live t p => live (f t) p
  | replaced v => replaced v

/-- Forgets the producer of a live place. -/
def dropProducer : Slot α → Slot α
  | live t _ => live t none
  | replaced v => replaced v

/-- Substitutes the axes of a live place, and tells whether this changed them. -/
def renameAxes (f : Axis → Axis) : Slot α → Except GraphError (Slot α × Bool)
  | live t p =>
    match t.type.rename? f with
    | some type => .ok (live { t with type } p, decide (type.order ≠ t.type.order))
    | none => .error (.duplicateAxis (t.type.order.axes.map f))
  | replaced v => .ok (replaced v, false)

end Slot

/-- Substitutes the axes among the parameters of a node, and tells whether this changed them. -/
def Node.renameAxes {α : Type} [Scalar α] (f : Axis → Axis) (node : Node α) :
    Except GraphError (Node α × Bool) := do
  let op ← node.op.mapAxes f
  if op.eqv node.op then return (node, false) else return ({ node with op }, true)

/-- Updates the entries of a list from the first on and tells whether any of them changed. After
a failure the entries before it stay updated. -/
def updateEach {β ε : Type} (f : β → Except ε (β × Bool)) : List β → List β × Except ε Bool
  | [] => ([], .ok false)
  | x :: xs =>
    match f x with
    | .error e => (x :: xs, .error e)
    | .ok (y, changed) =>
      let (ys, rest) := updateEach f xs
      (y :: ys, rest.map (changed || ·))

namespace Graph

variable {α : Type}

/-- Changes the tensor of a live variable. -/
def modifyTensor (g : Graph α) (v : VarId) (f : Tensor α → Tensor α) : Graph α :=
  { g with slots := g.slots.modify v.index (·.mapTensor f) }

/-- Adds a variable with the given producer. -/
def push (g : Graph α) (t : Tensor α) (producer : Option OpId) : Graph α × VarId :=
  ({ g with slots := g.slots.push (.live t producer) }, ⟨g.slots.size⟩)

/-- Adds a variable. -/
def addVariable (g : Graph α) (t : Tensor α) : Graph α × VarId := g.push t none

/-- Adds a variable fed by the runtime. -/
def addInput (g : Graph α) (t : Tensor α) : Graph α × VarId :=
  let (g, v) := g.addVariable (t.mark .input)
  ({ g with declaredInputs := g.declaredInputs ++ [v] }, v)

/-- Declares a variable as read back by the runtime. -/
def markOutput (g : Graph α) (v : VarId) : Except GraphError (Graph α) := do
  let v ← g.resolve v
  let g := g.modifyTensor v (·.mark .output)
  if v ∈ g.declaredOutputs then return g
  else return { g with declaredOutputs := g.declaredOutputs ++ [v] }

/-- Adds an operator and the variable it computes. -/
def addOp (g : Graph α) (op : Operator α) (inputs : List VarId) : GraphM (Graph α × VarId) := do
  let inputs ← g.resolveEach inputs
  let tensors ← g.tensors inputs
  let output ← op.inferTensor (tensors.map (·.type))
  let (g, v) := g.push output (some ⟨g.nodes.size⟩)
  return ({ g with nodes := g.nodes.push (some { op, inputs, output := v }) }, v)

/-- Detaches an operator. -/
def removeOperator (g : Graph α) (o : OpId) : Except GraphError (Graph α × Node α) := do
  let node ← g.operator o
  return ({ g with
    nodes := g.nodes.setIfInBounds o.index none
    slots := g.slots.modify node.output.index Slot.dropProducer }, node)

/-- Lets `new` take the place of `old`, which must have the same shape and order. The runtime
marks of `old` pass on to `new`. -/
def replaceVariable (g : Graph α) (old new : VarId) : Except GraphError (Graph α) := do
  let old ← g.resolve old
  let new ← g.resolve new
  if old = new then return g
  let x ← g.tensor old
  let y ← g.tensor new
  if x.type.shape != y.type.shape then throw (.replace x.type y.type .shapes)
  if x.type.order ≠ y.type.order then throw (.replace x.type y.type .orders)
  let g := g.modifyTensor new fun t => { t with marks := Mark.inherit x.marks t.marks }
  return { g with slots := g.slots.setIfInBounds old.index (.replaced new) }

/-- Substitutes axes in every live variable and every operator, and tells whether anything
changed. After a failure the changes made before it stay. -/
def renameAxes [Scalar α] (g : Graph α) (f : Axis → Axis) : Graph α × Except GraphError Bool :=
  let (slots, result) := updateEach (Slot.renameAxes f) g.slots.toList
  let g := { g with slots := slots.toArray }
  match result with
  | .error e => (g, .error e)
  | .ok changed =>
    let (nodes, result) := updateEach
      (fun (node? : Option (Node α)) =>
        match node? with
        | some node => (node.renameAxes f).map fun (node, changed) => (some node, changed)
        | none => .ok (none, false))
      g.nodes.toList
    ({ g with nodes := nodes.toArray }, result.map (changed || ·))

end Graph

end TensorCompiler
