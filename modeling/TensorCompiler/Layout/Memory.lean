import TensorCompiler.Graph.Traversal
/-!
# Memory layouts

The placement of every variable in linear memory, for backends that address it by offsets.
Constants lie in a static space, one behind the other. Everything else lies in a dynamic space,
whose regions are used again: once the last operator that reads an intermediate value has its
output placed, the region of the value is free for the next value of the same size.

Offsets and sizes count elements. Sizes are dimensions, so two symbolic sizes are the same only
if they are the same symbol, and the extent of the dynamic space may be symbolic.
-/

namespace TensorCompiler

inductive MemorySpace where
  /-- Written once, when the model is loaded. -/
  | static
  /-- Inputs and computed values. -/
  | dynamic
  deriving DecidableEq, Repr

/-- Writes data from a cell on, if there is room for them. -/
def store? {α : Type} (cells : Array α) (start : Nat) (data : Array α) : Option (Array α) :=
  if start + data.size ≤ cells.size then
    some (cells.extract 0 start ++ data ++ cells.extract (start + data.size) cells.size)
  else none

/-- A region of linear memory. -/
structure Allocation where
  space : MemorySpace
  offset : Dim
  size : Dim

/-- The dynamic space: everything below `top` is in use or free. -/
structure DynamicSpace where
  top : Dim := .known 0
  /-- Free regions in the order of their release. -/
  free : List Allocation := []

namespace DynamicSpace

/-- Takes the free region of this very size that was released first, or else a new one at the
top. -/
def alloc (s : DynamicSpace) (size : Dim) : FreshM (Allocation × DynamicSpace) :=
  match s.free.find? (·.size == size) with
  | some r => pure (⟨.dynamic, r.offset, size⟩, { s with free := s.free.eraseP (·.size == size) })
  | none => do return (⟨.dynamic, s.top, size⟩, { s with top := ← Dim.combine .add s.top size })

/-- Gives a region back. -/
def release (s : DynamicSpace) (a : Allocation) : DynamicSpace :=
  { s with free := s.free ++ [a] }

end DynamicSpace

/-- What one operator does to memory. -/
structure MemoryStep where
  output : VarId
  reads : List VarId

/-- The variables placed so far, in the order of their placement. -/
structure Placement where
  table : List (VarId × Allocation) := []
  space : DynamicSpace := {}

namespace Placement

variable {α : Type}

/-- The place of a variable. -/
def get? (p : Placement) (v : VarId) : Option Allocation := p.table.lookup v

/-- Places a variable in the dynamic space, unless it has its place already. -/
def place (g : Graph α) (p : Placement) (v : VarId) : GraphM Placement := do
  if (p.get? v).isSome then return p
  let size ← (← g.tensor v).type.size
  let (a, space) ← p.space.alloc size
  return { table := p.table ++ [(v, a)], space }

/-- Frees the region of a variable in the dynamic space. -/
def release (p : Placement) (v : VarId) : Placement :=
  match p.get? v with
  | some a => if a.space = .dynamic then { p with space := p.space.release a } else p
  | none => p

/-- What an operator reads for the last time, by ascending handle: variables that no later
operator reads and that need not be kept. -/
def lastReads (kept : List VarId) (step : MemoryStep) (later : List MemoryStep) : List VarId :=
  let last := step.reads.eraseDups.filter fun v =>
    v ∉ kept && later.all fun s => v ∉ s.reads
  last.mergeSort fun v w => decide (v.index ≤ w.index)

/-- Places the output of each operator and then frees what was read for the last time. -/
def placeSteps (g : Graph α) (kept : List VarId) :
    Placement → List MemoryStep → GraphM Placement
  | p, [] => pure p
  | p, step :: later => do
    let p ← p.place g step.output
    placeSteps g kept ((lastReads kept step later).foldl release p) later

/-- Places the constants among the variables in the static space, one behind the other. -/
def placeConstants : (offset : Nat) → List (VarId × Tensor α) → List (VarId × Allocation) × Nat
  | offset, [] => ([], offset)
  | offset, (v, t) :: rest =>
    match t.data with
    | none => placeConstants offset rest
    | some data =>
      let (table, size) := placeConstants (offset + data.size) rest
      ((v, ⟨.static, .known offset, .known data.size⟩) :: table, size)

end Placement

/-- The placement of every variable that the outputs of a graph depend on. -/
structure MemoryLayout where
  /-- In the order of their placement. -/
  allocations : List (VarId × Allocation)
  /-- Elements of the static space. -/
  staticSize : Nat
  /-- Elements of the dynamic space. -/
  dynamicSize : Dim

namespace MemoryLayout

variable {α : Type}

def get? (layout : MemoryLayout) (v : VarId) : Option Allocation := layout.allocations.lookup v

/-- Places the constants, then the inputs, which are never freed, then the outputs of the
operators in topological order, and at last what is left. -/
def allocate (g : Graph α) : GraphM MemoryLayout := do
  let vars ← g.reachable
  let steps ← (← g.topologicalOrder).mapM fun o => do
    return MemoryStep.mk (← g.operator o).output (← g.inputsOf o)
  let tensors ← g.tensors vars
  let (table, staticSize) := Placement.placeConstants 0 (vars.zip tensors)
  let placed ← g.inputs.foldlM (Placement.place g) { table }
  let placed ← Placement.placeSteps g (g.inputs ++ g.outputs) placed steps
  let placed ← vars.foldlM (Placement.place g) placed
  return { allocations := placed.table, staticSize, dynamicSize := placed.space.top }

/-- Writes the data of a constant to its place in the static space. -/
def shipConstant (g : Graph α) (cells : Array α) (entry : VarId × Allocation) :
    Except GraphError (Array α) := do
  let data := (← g.tensor entry.1).data.getD #[]
  match store? cells (entry.2.offset.known?.getD 0) data with
  | some cells => return cells
  | none => throw .indexFault

/-- The contents of the static space: zeros, over which the constants are written by ascending
handle. -/
def constants [Scalar α] (layout : MemoryLayout) (g : Graph α) : Except GraphError (Array α) := do
  let static := (sortByVar layout.allocations).filter (·.2.space = .static)
  static.foldlM (shipConstant g) (Array.replicate layout.staticSize Scalar.zero)

end MemoryLayout

end TensorCompiler
