import TensorCompiler.Graph.Traversal
import TensorCompiler.Operator.Evaluate
/-!
# The reference interpreter

`Graph.run` feeds the inputs, evaluates every operator the outputs depend on, and reads the
outputs.
-/

namespace TensorCompiler

/-- Values of variables; the one written last counts. -/
structure Values (α : Type) where
  entries : List (VarId × Array α) := []

namespace Values

variable {α : Type}

def get? (values : Values α) (v : VarId) : Option (Array α) := values.entries.lookup v

def set (values : Values α) (v : VarId) (data : Array α) : Values α :=
  ⟨(v, data) :: values.entries⟩

end Values

namespace Graph

variable {α : Type}

/-- The value of a variable: what was fed or computed, else its constant data. -/
def fetch (g : Graph α) (values : Values α) (v : VarId) : Except GraphError (Array α) :=
  match values.get? v with
  | some data => .ok data
  | none => do
    match (← g.tensor v).data with
    | some data => return data
    | none => throw (.missingFeed v)

/-- Feeds one variable, with one element for each coordinate. -/
def feed (g : Graph α) (values : Values α) (entry : VarId × Array α) :
    Except GraphError (Values α) := do
  let v ← g.resolve entry.1
  let expected ← (← g.tensor v).type.concreteSize
  if entry.2.size ≠ expected then throw (.dataLength expected entry.2.size)
  return values.set v entry.2

/-- Evaluates one operator on the values so far. -/
def runOp [Scalar α] (g : Graph α) (values : Values α) (o : OpId) :
    Except GraphError (Values α) := do
  let node ← g.operator o
  let inputs ← g.inputsOf o
  let data ← inputs.mapM (g.fetch values)
  let tensors ← g.tensors inputs
  let output ← g.tensor node.output
  let value ← node.op.evaluate ((tensors.map (·.type)).zip data) output.type
  return values.set node.output value

/-- The values of the outputs on these feeds. -/
def run [Scalar α] (g : Graph α) (feeds : List (VarId × Array α)) :
    Except GraphError (List (VarId × Array α)) := do
  let values ← feeds.foldlM g.feed {}
  let values ← (← g.topologicalOrder).foldlM g.runOp values
  g.outputs.mapM fun v => return (v, ← g.fetch values v)

end Graph

end TensorCompiler
