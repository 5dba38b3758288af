/-!
# Tensor dimensions

A dimension is a known integer or a symbol that gets its value when the model is instantiated.
Symbols are either free, with a label, or derived from two other dimensions by one arithmetic
step. Every symbol carries a number, and two symbols are the same dimension only if they are the
very same symbol: equal texts do not make equal dimensions.

Arithmetic is that of 64-bit words. A step on two known operands is carried out at once; one that
overflows, underflows or divides by zero stays behind as a derived symbol, which is how
`Dim.overflowed` finds it again.
-/

namespace TensorCompiler

/-- Words hold the integers below this bound. -/
def wordLimit : Nat := 0x10000000000000000

/-- The arithmetic steps on dimensions. -/
inductive Arith where
  | add | sub | mul | div | rem
  deriving DecidableEq, Repr

namespace Arith

/-- One checked step on 64-bit words; `none` if its result does not exist or does not fit. -/
def apply : Arith → Nat → Nat → Option Nat
  | add, x, y => if x + y < wordLimit then some (x + y) else none
  | sub, x, y => if y ≤ x then some (x - y) else none
  | mul, x, y => if x * y < wordLimit then some (x * y) else none
  | div, x, y => if y = 0 then none else some (x / y)
  | rem, x, y => if y = 0 then none else some (x % y)

def sign : Arith → String
  | add => "+"
  | sub => "-"
  | mul => "*"
  | div => "/"
  | rem => "%"

end Arith

/-- A free symbol: a label under a number that no other symbol has. -/
structure Symbol where
  number : Nat
  label : String
  deriving DecidableEq, Repr

/-- A dimension of a tensor. -/
inductive Dim where
  | known (value : Nat)
  | free (symbol : Symbol)
  /-- The symbol with this number, standing for `x op y`. -/
  | derived (number : Nat) (op : Arith) (x y : Dim)
  deriving Repr

/-- The numbers not yet given to a symbol start at `next`. -/
structure Supply where
  next : Nat := 0

/-- Computations that may create symbols. -/
abbrev FreshM := StateM Supply

/-- Takes the next unused number. -/
def freshNumber : FreshM Nat :=
  modifyGet fun s => (s.next, { s with next := s.next + 1 })

namespace Dim

/-- The value of a dimension that is known without a valuation. -/
def known? : Dim → Option Nat
  | known n => some n
  | _ => none

/-- The number of a symbolic dimension. -/
def symbol? : Dim → Option Nat
  | known _ => none
  | free s => some s.number
  | derived n .. => some n

/-- The label of a free symbol. -/
def label? : Dim → Option String
  | free s => some s.label
  | _ => none

def isKnown (d : Dim) : Bool := d.known?.isSome

/-- The dimension is known and has this value. -/
def is (d : Dim) (n : Nat) : Bool := d.known? == some n

/-- Known dimensions are compared by value, symbols by identity. -/
def same (x y : Dim) : Bool :=
  match x, y with
  | known a, known b => a == b
  | known _, _ => false
  | _, known _ => false
  | _, _ => x.symbol? == y.symbol?

instance : BEq Dim := ⟨same⟩

instance : Inhabited Dim := ⟨known 0⟩

def text : Dim → String
  | known n => toString n
  | free s => s.label
  | derived _ op x y => "(" ++ x.text ++ " " ++ op.sign ++ " " ++ y.text ++ ")"

/-- A fresh free symbol. -/
def ofLabel (label : String) : FreshM Dim := do
  return free ⟨← freshNumber, label⟩

/-- The result of a step that needs no new symbol: a known value, or one of the operands where
the other one is neutral. -/
def simplify? (op : Arith) (x y : Dim) : Option Dim :=
  match x.known?, y.known? with
  | some a, some b => (op.apply a b).map known
  | _, some b =>
    match op with
    | .add | .sub => if b = 0 then some x else none
    | .mul | .div => if b = 1 then some x else none
    | .rem => none
  | some a, none =>
    match op with
    | .add => if a = 0 then some y else none
    | .mul => if a = 1 then some y else none
    | _ => none
  | none, none => none

/-- One arithmetic step on dimensions. -/
def combine (op : Arith) (x y : Dim) : FreshM Dim :=
  match simplify? op x y with
  | some z => pure z
  | none => do return derived (← freshNumber) op x y

/-- Some step on two known operands failed. Successful ones are carried out at once, so a derived
symbol over two known operands remains only in that case. -/
def overflowed : Dim → Bool
  | derived _ _ x y => (x.isKnown && y.isKnown) || x.overflowed || y.overflowed
  | _ => false

/-- Division by `k` rounding up, or `none` for the divisor zero. On a symbol it is the floor of
`(x + (k - 1)) / k`. -/
def ceilDiv? (x : Dim) (k : Nat) : FreshM (Option Dim) :=
  if k = 0 then pure none
  else match x with
    | known n => pure (some (known ((n + (k - 1)) / k)))
    | x => do
      let raised ← combine .add x (known (k - 1))
      return some (← combine .div raised (known k))

/-- The product of a list of dimensions, multiplied from the left. -/
def product (dims : List Dim) : FreshM Dim :=
  dims.foldlM (combine .mul) (known 1)

/-- Adds the free symbols of a dimension behind those already found. -/
def collectFree (found : List Symbol) : Dim → List Symbol
  | known _ => found
  | free s => if found.any (·.number == s.number) then found else found ++ [s]
  | derived _ _ x y => collectFree (collectFree found x) y

/-- The free symbols a dimension depends on, each once, from left to right. -/
def freeSymbols (d : Dim) : List Symbol := collectFree [] d

end Dim

/-- Values of free symbols, given when the model is instantiated. -/
structure Valuation where
  bindings : List (Nat × UInt64) := []

namespace Valuation

/-- The value bound last to a symbol. -/
def value? (env : Valuation) (s : Symbol) : Option Nat :=
  (env.bindings.lookup s.number).map UInt64.toNat

/-- Binds a free symbol; known and derived dimensions are left alone. -/
def bind (env : Valuation) (d : Dim) (value : UInt64) : Valuation :=
  match d with
  | .free s => ⟨(s.number, value) :: env.bindings⟩
  | _ => env

end Valuation

/-- The value of a dimension under a valuation, by checked 64-bit arithmetic. -/
def Dim.resolve (env : Valuation) : Dim → Option Nat
  | known n => some n
  | free s => env.value? s
  | derived _ op x y => do op.apply (← x.resolve env) (← y.resolve env)

end TensorCompiler
