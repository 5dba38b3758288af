/-!
# Axes and axis orders

An axis is the identity of a tensor dimension: batch, channel, height. Axes are compared as
values, and each new axis gets a number of its own, so two axes may share a name and still be
different dimensions. A *free* axis has no name yet; axis unification decides which named axis
it stands for.

An `Order` lists the axes of one tensor, outermost first, each of them once.
-/

namespace TensorCompiler

/-- A dimension identity. -/
inductive Axis where
  /-- An axis with a decided meaning. -/
  | named (number : Nat) (name : String)
  /-- An axis whose meaning is still open. -/
  | free (number : Nat)
  deriving DecidableEq, Repr

namespace Axis

/-- The number that sets an axis apart from all others. -/
def number : Axis → Nat
  | named n _ => n
  | free n => n

/-- The label of a decided axis. -/
def name? : Axis → Option String
  | named _ s => some s
  | free _ => none

def isFree : Axis → Bool
  | named .. => false
  | free _ => true

/-- Numbers below this one belong to the well-known axes. -/
def firstFresh : Nat := 16

def batch : Axis := named 0 "N"
def channel : Axis := named 1 "C"
def height : Axis := named 2 "H"
def width : Axis := named 3 "W"
def time : Axis := named 4 "T"

def wellKnown : List Axis := [batch, channel, height, width, time]

/-- A free axis is shown by its number behind a question mark. -/
def text : Axis → String
  | named _ s => s
  | free n => s!"?{n}"

/-- The text of an axis sequence, which need not be free of repetitions. -/
def listText (axes : List Axis) : String :=
  "[" ++ ", ".intercalate (axes.map text) ++ "]"

end Axis

/-- The axis sequence of a tensor. -/
structure Order where
  axes : List Axis
  /-- No axis occurs twice. -/
  nodup : axes.Nodup
  deriving DecidableEq, Repr

namespace Order

/-- The order with these axes, unless one of them is repeated. -/
def ofList? (axes : List Axis) : Option Order :=
  if h : axes.Nodup then some ⟨axes, h⟩ else none

def rank (o : Order) : Nat := o.axes.length

/-- Position of an axis in the order. -/
def indexOf? (o : Order) (a : Axis) : Option Nat := o.axes.idxOf? a

/-- Both orders hold the same axes, at whatever positions. -/
def sameAxes (o p : Order) : Bool :=
  o.rank == p.rank && o.axes.all (p.axes.contains ·)

def hasFreeAxis (o : Order) : Bool := o.axes.any Axis.isFree

/-- Substitutes every axis, unless two of them collapse into one. -/
def map? (f : Axis → Axis) (o : Order) : Option Order := ofList? (o.axes.map f)

def text (o : Order) : String := Axis.listText o.axes

theorem ofList?_eq_some_iff {axes : List Axis} {o : Order} :
    ofList? axes = some o ↔ o.axes = axes := by
  unfold ofList?
  constructor
  · intro h
    split at h
    · cases h; rfl
    · cases h
  · rintro rfl
    rw [dif_pos o.nodup]

theorem ofList?_eq_none_iff {axes : List Axis} : ofList? axes = none ↔ ¬axes.Nodup := by
  unfold ofList?
  split <;> simp_all

end Order

end TensorCompiler
