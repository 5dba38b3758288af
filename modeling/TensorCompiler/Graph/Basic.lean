import TensorCompiler.Operator.Infer
/-!
# Graphs

A graph is an arena of variables and operators between declared inputs and outputs. Handles are
positions in the arena and are never reused. A variable that was replaced leaves a link to its
successor, so old handles keep their meaning: `Graph.resolve` follows the links to the variable
that a handle stands for now.

A live variable that is the output of a live operator knows this operator as its producer.
-/

namespace TensorCompiler

/-- An operator placed in a graph. -/
structure Node (α : Type) where
  op : Operator α
  /-- The inputs as registered; they may have been replaced since. -/
  inputs : List VarId
  output : VarId

/-- A place of the arena. -/
inductive Slot (α : Type) where
  | live (tensor : Tensor α) (producer : Option OpId)
  /-- The variable was replaced by another one. -/
  | replaced (next : VarId)

structure Graph (α : Type) where
  slots : Array (Slot α) := #[]
  /-- The operators by handle; those detached from the graph are gone. -/
  nodes : Array (Option (Node α)) := #[]
  /-- The declared inputs as registered. -/
  declaredInputs : List VarId := []
  /-- The declared outputs as registered. -/
  declaredOutputs : List VarId := []

namespace Graph

variable {α : Type}

/-- Follows at most `n` links from a variable to a live one. -/
def follow (g : Graph α) : Nat → VarId → Option VarId
  | 0, _ => none
  | n + 1, v =>
    match g.slots[v.index]? with
    | some (.live ..) => some v
    | some (.replaced next) => g.follow n next
    | none => none

/-- The variable that a handle stands for. A chain of links has no place twice, so it is never
longer than the arena. -/
def resolve (g : Graph α) (v : VarId) : Except GraphError VarId :=
  match g.follow (g.slots.size + 1) v with
  | some w => .ok w
  | none => .error (.invalidVariable v)

/-- The tensor of a live variable; the handle of a replaced one is an error. -/
def tensor (g : Graph α) (v : VarId) : Except GraphError (Tensor α) :=
  match g.slots[v.index]? with
  | some (.live t _) => .ok t
  | some (.replaced _) => .error (.staleVariable v)
  | none => .error (.invalidVariable v)

/-- The tensors of several live variables. -/
def tensors (g : Graph α) (vs : List VarId) : Except GraphError (List (Tensor α)) :=
  vs.mapM g.tensor

/-- The variables that several handles stand for. -/
def resolveEach (g : Graph α) (vs : List VarId) : Except GraphError (List VarId) :=
  vs.mapM g.resolve

/-- The tensor of the variable that a handle stands for. -/
def get (g : Graph α) (v : VarId) : Except GraphError (Tensor α) := do
  g.tensor (← g.resolve v)

/-- A live operator. -/
def operator (g : Graph α) (o : OpId) : Except GraphError (Node α) :=
  match g.nodes[o.index]? with
  | some (some node) => .ok node
  | _ => .error (.invalidOperator o)

/-- The live operators in order of their creation, reachable or not. -/
def operators (g : Graph α) : List (OpId × Node α) :=
  g.nodes.toList.zipIdx.filterMap fun (node?, i) => node?.map fun node => (⟨i⟩, node)

/-- What the handles of a list stand for, without those that stand for nothing. -/
def resolveAll (g : Graph α) (vs : List VarId) : List VarId :=
  vs.filterMap fun v => (g.resolve v).toOption

/-- The variables fed by the runtime. -/
def inputs (g : Graph α) : List VarId := g.resolveAll g.declaredInputs

/-- The variables read back by the runtime. -/
def outputs (g : Graph α) : List VarId := g.resolveAll g.declaredOutputs

/-- What an operator reads. -/
def inputsOf (g : Graph α) (o : OpId) : Except GraphError (List VarId) := do
  g.resolveEach (← g.operator o).inputs

/-- The operator whose output a variable is. -/
def producer (g : Graph α) (v : VarId) : Option OpId := do
  let w ← (g.resolve v).toOption
  match g.slots[w.index]? with
  | some (.live _ p) => p
  | _ => none

/-- The operators that read a variable, in order of their creation. -/
def consumers (g : Graph α) (v : VarId) : List OpId :=
  match g.resolve v with
  | .error _ => []
  | .ok w => (g.operators.filter fun (_, node) => w ∈ g.resolveAll node.inputs).map (·.1)

end Graph

end TensorCompiler
