import TensorCompiler.Handle
import TensorCompiler.Tensor.Type
import TensorCompiler.Operator.Kind
/-!
# Errors of the graph layer

One constructor for each way in which building, editing or evaluating a graph can fail, and one
function for the wording.
-/

namespace TensorCompiler

/-- What an operator rejects in the types of its inputs. -/
inductive Mismatch where
  | tileRank
  | tileZero
  | sliceRank
  | emptyRange (index : Nat)
  | rangeOutOfBound (index : Nat)
  | reinterpretRank
  | reinterpretOrder (expected : Order)
  | resizeSameAxis
  | resizeZero
  | resizeMissing (axis1 axis2 : Axis)
  | sizesDisagree (axis : Axis)

def Mismatch.text : Mismatch → String
  | tileRank => "multiplier rank differs from input rank"
  | tileZero => "multiplier must be positive"
  | sliceRank => "slice ranges do not cover every axis"
  | emptyRange i => s!"empty range on axis {i}"
  | rangeOutOfBound i => s!"range out of bound on axis {i}"
  | reinterpretRank => "reinterpreting must not change rank"
  | reinterpretOrder o => "expected input order " ++ o.text
  | resizeSameAxis => "resized axes must be distinct"
  | resizeZero => "resized sizes must be positive"
  | resizeMissing a b => "input lacks axis " ++ a.text ++ " or " ++ b.text
  | sizesDisagree a => "sizes disagree on axis " ++ a.text

/-- Why one variable cannot take the place of another. -/
inductive ReplaceFault where
  | shapes
  | orders
  deriving DecidableEq

def ReplaceFault.text : ReplaceFault → String
  | shapes => "shapes differ"
  | orders => "orders differ"

inductive GraphError where
  | duplicateAxis (axes : List Axis)
  | rank (order : Order) (rank : Nat)
  | arity (kind : OpKind) (expected found : Nat)
  | mismatch (kind : OpKind) (reason : Mismatch) (inputs : List TensorType)
  | replace (old new : TensorType) (reason : ReplaceFault)
  | cyclicGraph (var : VarId)
  | staleVariable (var : VarId)
  | invalidVariable (var : VarId)
  | invalidOperator (op : OpId)
  | freeAxis (var : VarId) (order : Order)
  | axisConflict (x y : Axis)
  | overflow (dim : Dim)
  | unresolved (dim : Dim)
  | dataLength (expected found : Nat)
  | missingFeed (var : VarId)
  | unbound (var : VarId)
  /-- Index arithmetic of the interpreter left its domain: an operand that is not there, a
  division by zero, or a result beyond 64 bits. -/
  | indexFault

namespace GraphError

def message : GraphError → String
  | duplicateAxis axes => "order " ++ Axis.listText axes ++ " contains duplicated axes"
  | rank o r => "order " ++ o.text ++ s!" does not match rank {r}"
  | arity k expected found => k.text ++ s!" expects {expected} inputs, found {found}"
  | mismatch k reason inputs =>
    k.text ++ ": " ++ reason.text ++ "; inputs: " ++ ", ".intercalate (inputs.map TensorType.text)
  | replace old new reason =>
    "cannot replace " ++ old.text ++ " with " ++ new.text ++ ": " ++ reason.text
  | cyclicGraph v => "cyclic data dependency through " ++ v.text
  | staleVariable v => "variable handle " ++ v.text ++ " is stale"
  | invalidVariable v => "variable handle " ++ v.text ++ " is invalid"
  | invalidOperator o => "operator handle " ++ o.text ++ " is invalid"
  | freeAxis v o => "variable " ++ v.text ++ " has free axes in order " ++ o.text
  | axisConflict x y => "cannot unify distinct named axes " ++ x.text ++ " and " ++ y.text
  | overflow d => "dimension " ++ d.text ++ " overflows"
  | unresolved d => "dimension " ++ d.text ++ " is not resolved"
  | dataLength expected found => s!"data length {found} does not match size {expected}"
  | missingFeed v => "no data fed for input " ++ v.text
  | unbound v => "variable " ++ v.text ++ " is neither an input nor a constant"
  | indexFault => "index arithmetic left its domain"

end GraphError

/-- Graph computations that may create symbols. Symbols already created stay so after a failure. -/
abbrev GraphM := ExceptT GraphError FreshM

/-- The order with these axes; a repeated axis is an error. -/
def Order.ofList (axes : List Axis) : Except GraphError Order :=
  match Order.ofList? axes with
  | some o => .ok o
  | none => .error (.duplicateAxis axes)

/-- Substitutes every axis; it is an error if two of them collapse into one. -/
def Order.map (f : Axis → Axis) (o : Order) : Except GraphError Order :=
  Order.ofList (o.axes.map f)

end TensorCompiler
