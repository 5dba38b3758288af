import TensorCompiler.Graph.Edit
import TensorCompiler.Graph.Traversal
import TensorCompiler.Layout.TextureShape
/-!
# Passes

A pass edits a graph and tells whether it changed anything. Passes form groups, and a group may
be repeated until a round changes nothing. The graph is kept when a pass fails, with the edits
made so far.
-/

namespace TensorCompiler

inductive PassError where
  | graph (error : GraphError)
  | fixedPointNotReached (group : String) (limit : Nat)
  | textureLimit (var : VarId) (fault : TextureFault)

def PassError.message : PassError → String
  | graph e => e.message
  | fixedPointNotReached group limit =>
    s!"rule group `{group}` did not reach a fixed point within {limit} iterations"
  | textureLimit v fault => "resource limit exceeded by " ++ v.text ++ ": " ++ fault.text

/-- Computations that edit a graph. -/
abbrev PassM (α : Type) := ExceptT PassError (StateT (Graph α) FreshM)

namespace PassM

variable {α β : Type}

/-- Runs a graph computation, which only reads the graph it is given. -/
def ofGraphM (x : GraphM β) : PassM α β :=
  ExceptT.mk do return (← x.run).mapError .graph

instance : MonadLift GraphM (PassM α) := ⟨ofGraphM⟩

instance : MonadLift (Except GraphError) (PassM α) :=
  ⟨fun x => ExceptT.mk (pure (x.mapError .graph))⟩

/-- The graph with the edits made so far. -/
def graph : PassM α (Graph α) := ExceptT.lift StateT.get

def setGraph (g : Graph α) : PassM α Unit := ExceptT.lift (StateT.set g)

instance : MonadLift (Except PassError) (PassM α) := ⟨fun x => ExceptT.mk (pure x)⟩

def addVariable (t : Tensor α) : PassM α VarId := do
  let (g, v) := (← graph).addVariable t
  setGraph g
  return v

def addOp (op : Operator α) (inputs : List VarId) : PassM α VarId := do
  let (g, v) ← (← graph).addOp op inputs
  setGraph g
  return v

def removeOperator (o : OpId) : PassM α Unit := do
  let (g, _) ← (← graph).removeOperator o
  setGraph g

def replaceVariable (old new : VarId) : PassM α Unit := do
  setGraph (← (← graph).replaceVariable old new)

/-- Substitutes axes throughout the graph. -/
def renameAxes [Scalar α] (f : Axis → Axis) : PassM α Bool := do
  let (g, result) := (← graph).renameAxes f
  setGraph g
  result

/-- Visits the operators that the outputs depend on, in the order they have before the first
visit, and tells whether any visit changed the graph. -/
def sweep (step : OpId → PassM α Bool) : PassM α Bool := do
  let ops ← (← graph).topologicalOrder
  ops.foldlM (fun changed op => return (← step op) || changed) false

end PassM

/-- A pass in a monad of edits. -/
structure Pass (m : Type → Type) where
  name : String
  /-- Edits the graph and tells whether this changed it. -/
  run : m Bool

namespace Pass

variable {m : Type → Type} [Monad m] [MonadExceptOf PassError m]

/-- Runs passes one after the other and tells whether any of them changed the graph. -/
def sequence (passes : List (Pass m)) : m Bool :=
  passes.foldlM (fun changed pass => return (← pass.run) || changed) false

/-- Repeats a round until it changes nothing, at most `rounds` times. -/
def untilSettled (failure : PassError) (round : m Bool) :
    (rounds : Nat) → (changedBefore : Bool) → m Bool
  | 0, _ => throw failure
  | n + 1, changedBefore => do
    if ← round then untilSettled failure round n true else return changedBefore

/-- A group of passes. Without `repeats` it runs once; else it runs in rounds until nothing
changes, and fails if the last of the rounds still changed something. -/
def group (name : String) (passes : List (Pass m)) (repeats : Option Nat) : Pass m where
  name := name
  run := match repeats with
    | none => sequence passes
    | some n =>
      let limit := Nat.max n 1
      untilSettled (.fixedPointNotReached name limit) (sequence passes) limit false

end Pass

end TensorCompiler
