/-!
# Operator kinds

The closed set of operators, without their parameters. Kinds key the table of kernel handlers and
appear in messages and kernel names.
-/

namespace TensorCompiler

inductive OpKind where
  | add | mul | greater | greaterEqual | scalarAffine | select
  | tile | slice | reinterpretAxis | resize2d
  deriving DecidableEq, Repr

namespace OpKind

def all : List OpKind :=
  [add, mul, greater, greaterEqual, scalarAffine, select, tile, slice, reinterpretAxis, resize2d]

def text : OpKind → String
  | add => "add"
  | mul => "mul"
  | greater => "greater"
  | greaterEqual => "greater_equal"
  | scalarAffine => "scalar_affine"
  | select => "select"
  | tile => "tile"
  | slice => "slice"
  | reinterpretAxis => "reinterpret_axis"
  | resize2d => "resize_2d"

/-- Each output element depends on the input elements at the same coordinate. -/
def isElementwise : OpKind → Bool
  | add | mul | greater | greaterEqual | scalarAffine | select => true
  | tile | slice | reinterpretAxis | resize2d => false

/-- Names of the operands, as kernels refer to them. -/
def inputNames : OpKind → List String
  | add | mul | greater | greaterEqual => ["x0", "x1"]
  | select => ["x0", "x1", "x2"]
  | _ => ["x"]

/-- Name of the result, as kernels refer to it. -/
def outputName : String := "y"

def arity (k : OpKind) : Nat := k.inputNames.length

theorem mem_all (k : OpKind) : k ∈ all := by cases k <;> decide

end OpKind

end TensorCompiler
