import TensorCompiler.Layout.Memory
import TensorCompiler.Template.Error
/-!
# Bindings of a template

What is bound to the names of a template, and what the runtime has to provide for it. Integers
that are known only when the model is instantiated are stored as zeros, and a patch says where
each of them has to be written then.
-/

namespace TensorCompiler

/-- A value bound to a name. -/
inductive Binding (α : Type) where
  | buffer (allocation : Allocation)
  | int (value : Dim)
  | ints (values : List Dim)
  | float (value : α)
  | sampler (var : VarId)

/-- The values bound to names; a name has one value. -/
structure Bindings (α : Type) where
  entries : List (String × Binding α) := []

namespace Bindings

variable {α : Type}

def get? (bs : Bindings α) (name : String) : Option (Binding α) := bs.entries.lookup name

/-- Binds a name, in place of an earlier binding. -/
def bind (bs : Bindings α) (name : String) (b : Binding α) : Bindings α :=
  ⟨(name, b) :: bs.entries.filter fun entry => entry.1 ≠ name⟩

/-- Binds names one after the other. -/
def ofList (entries : List (String × Binding α)) : Bindings α :=
  entries.foldl (fun bs (name, b) => bs.bind name b) {}

/-- The bound names in ascending order. -/
def names (bs : Bindings α) : List String :=
  (bs.entries.map (·.1)).mergeSort fun x y => decide (x ≤ y)

end Bindings

inductive UniformValue (α : Type) where
  | ints (values : List Nat)
  | floats (values : List α)

/-- What the runtime has to provide for one binding. -/
inductive BoundValue (α : Type) where
  /-- Written out in the source. -/
  | literal (value : Nat)
  /-- Written out in the source. -/
  | float (value : α)
  /-- A range of the kernel's meta table. -/
  | table (offset length : Nat)
  | buffer (allocation : Allocation)
  | uniform (type : String) (value : UniformValue α)
  | sampler (texture : VarId) (unit : Nat)

structure KernelBinding (α : Type) where
  name : String
  value : BoundValue α

/-- Where a symbolic value has to be written once it is known. -/
inductive PatchSite where
  /-- An entry of the kernel's meta table. -/
  | table (index : Nat)
  /-- A component of a uniform. -/
  | uniform (name : String) (component : Nat)
  deriving DecidableEq, Repr

structure Patch where
  dim : Dim
  site : PatchSite

/-- A value as a signed 32-bit integer. -/
def fitInt32 (value : Nat) : Except TemplateError Nat :=
  if value < 0x80000000 then .ok value else .error (.overflow value)

/-- The table of integers that a kernel of a linear backend reads. -/
structure MetaTable where
  entries : List Nat := []
  patches : List Patch := []

namespace MetaTable

/-- Appends one value and gives its index. -/
def push (t : MetaTable) (value : Dim) : Except TemplateError (Nat × MetaTable) := do
  let index := t.entries.length
  match value.known? with
  | some n => return (index, { t with entries := t.entries ++ [← fitInt32 n] })
  | none => return (index,
      { entries := t.entries ++ [0], patches := t.patches ++ [⟨value, .table index⟩] })

/-- Appends values one by one and gives the index of the first. Those in front of a failure
stay. -/
def extend (t : MetaTable) (values : List Dim) : Except TemplateError Nat × MetaTable :=
  match values with
  | [] => (.ok t.entries.length, t)
  | value :: rest =>
    match t.push value with
    | .error e => (.error e, t)
    | .ok (index, t) =>
      let (result, t) := t.extend rest
      (result.map fun _ => index, t)

/-- The entries as 32-bit integers, low bytes first. -/
def bytes (t : MetaTable) : List Nat :=
  t.entries.flatMap fun n => [n % 0x100, n / 0x100 % 0x100, n / 0x10000 % 0x100, n / 0x1000000 % 0x100]

end MetaTable

end TensorCompiler
