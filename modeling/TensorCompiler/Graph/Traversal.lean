import TensorCompiler.Graph.Basic
/-!
# Traversal

The part of a graph that matters is what its outputs depend on, up to the declared inputs.
`Graph.topologicalOrder` lists the operators of this part, each behind those that compute its
inputs, and finds out whether they depend on each other in a circle.
-/

namespace TensorCompiler

namespace Graph

variable {α : Type}

/-- Lists the operators that `op` depends on and then `op` itself, behind the operators in `done`
and without repeating them. `path` holds the operators whose visit led here; reading from one of
them closes a circle. Each step down adds an operator to the path, so `fuel` need not exceed the
number of operators. -/
def visit (g : Graph α) (inputs : List VarId) :
    (fuel : Nat) → (path : List OpId) → (done : List OpId) → OpId → Except GraphError (List OpId)
  | 0, _, _, op => .error (.invalidOperator op)
  | fuel + 1, path, done, op => do
    let reads ← g.inputsOf op
    let done ← reads.foldlM (fun done v =>
      if v ∈ inputs then .ok done
      else match g.producer v with
        | none => .ok done
        | some child =>
          if child ∈ op :: path then .error (.cyclicGraph v)
          else if child ∈ done then .ok done
          else g.visit inputs fuel (op :: path) done child) done
    return done ++ [op]

/-- The operators whose outputs are read back by the runtime. -/
def rootOps (g : Graph α) : List OpId :=
  let inputs := g.inputs
  (g.outputs.filter (· ∉ inputs)).filterMap g.producer

/-- The operators that the outputs depend on without passing an input, producers before
consumers. -/
def topologicalOrder (g : Graph α) : Except GraphError (List OpId) :=
  let inputs := g.inputs
  g.rootOps.foldlM (fun done root =>
    if root ∈ done then .ok done else g.visit inputs (g.nodes.size + 1) [] done root) []

/-- The variables that the outputs depend on: the inputs first, then those the operators touch. -/
def reachable (g : Graph α) : Except GraphError (List VarId) := do
  let touched ← (← g.topologicalOrder).mapM fun op => do
    return (← g.inputsOf op) ++ [(← g.operator op).output]
  return (g.inputs ++ touched.flatten ++ g.outputs).eraseDups

/-- Checks that the outputs depend on no circle and on no tensor with a free axis. -/
def validate (g : Graph α) : Except GraphError Unit := do
  (← g.reachable).forM fun v => do
    let t ← g.tensor v
    if t.type.order.hasFreeAxis then throw (.freeAxis v t.type.order)

/-- The same arena between other inputs and outputs. Whatever the outputs depend on must be
computed, declared as an input, or constant. -/
def induced (g : Graph α) (inputs outputs : List VarId) : Except GraphError (Graph α) := do
  let inputs ← g.resolveEach inputs
  let outputs ← g.resolveEach outputs
  let part := { g with declaredInputs := inputs, declaredOutputs := outputs }
  (← part.reachable).forM fun v => do
    let bound := v ∈ inputs || (← part.tensor v).isConstant
    if (part.producer v).isNone && !bound then throw (.unbound v)
  return part

end Graph

end TensorCompiler
