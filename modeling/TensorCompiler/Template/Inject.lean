import TensorCompiler.Scalar
import TensorCompiler.Template.Basic
import TensorCompiler.Template.Binding
/-!
# Injection

Injection writes the bindings of a template out in a dialect. Every requested name must be bound
and every bound name requested. A binding is rendered at its first request; later requests of the
name repeat the text, so it has one place in the meta table or one unit however often it is read.
-/

namespace TensorCompiler

/-- How the requests of a template are filled. -/
structure Injector (α : Type) where
  dialect : Dialect
  /-- The name of the kernel. -/
  name : String
  bindings : Bindings α := {}

/-- A template written out with its bindings. -/
structure Injected (α : Type) where
  source : String
  table : MetaTable
  bindings : List (KernelBinding α)
  patches : List Patch

/-- The text of a request, and what the runtime has to provide for it. -/
structure Rendered (α : Type) where
  text : String
  value : BoundValue α

/-- The literal of a scalar in a dialect. -/
def Dialect.floatText {α : Type} [ScalarText α] (d : Dialect) (x : α) :
    Except TemplateError String :=
  if ScalarText.isFinite x then
    .ok (ScalarText.text x ++ if d = .c then "f" else "")
  else
    .error (.nonFinite (ScalarText.text x))

/-- The name of the buffer that holds a space. -/
def MemorySpace.pointer : MemorySpace → String
  | static => "static_buffer"
  | dynamic => "dynamic_buffer"

/-- Where a space begins in the data buffer. -/
def MemorySpace.base (dynamicBase : Nat) : MemorySpace → Nat
  | static => 0
  | dynamic => dynamicBase

section Rendering

variable {α : Type} [ScalarText α]

/-- Renders an integer: a literal if it is known, else an entry of the meta table. -/
def Dialect.loadInt (d : Dialect) (name : String) (x : Dim) (table : MetaTable) :
    Except TemplateError (Rendered α × MetaTable) :=
  match x.known? with
  | some n => do return (⟨toString (← fitInt32 n), .literal n⟩, table)
  | none =>
    if d = .glsl then .error (.unsupportedRequest d name .symbolicLiteral)
    else do
      let (index, table) ← table.push x
      return (⟨s!"meta_buffer[{index}]", .table index 1⟩, table)

/-- Renders a table of integers: a pointer or an index into the meta table. -/
def Dialect.loadInts (d : Dialect) (name : String) (xs : List Dim) (table : MetaTable) :
    Except TemplateError (Rendered α × MetaTable) :=
  if d = .glsl then .error (.unsupportedRequest d name .inlineTable)
  else do
    let (result, table) := table.extend xs
    let offset ← result
    let text := if d = .c then s!"(meta_buffer + {offset})" else toString offset
    return (⟨text, .table offset xs.length⟩, table)

/-- Renders the address of a region. -/
def Dialect.loadRegion (d : Dialect) (name : String) (a : Allocation) (table : MetaTable) :
    Except TemplateError (Rendered α × MetaTable) :=
  match d, a.offset.known? with
  | .c, some offset =>
    .ok (⟨"(" ++ a.space.pointer ++ s!" + {offset})", .buffer a⟩, table)
  | .c, none => do
    let (index, table) ← table.push a.offset
    return (⟨"(" ++ a.space.pointer ++ s!" + meta_buffer[{index}])", .buffer a⟩, table)
  | .wgsl dynamicBase, some offset => do
    let address ← fitInt32 (a.space.base dynamicBase + offset)
    return (⟨toString address, .buffer a⟩, table)
  | .wgsl dynamicBase, none => do
    let base ← fitInt32 (a.space.base dynamicBase)
    let (index, table) ← table.push a.offset
    return (⟨s!"({base} + meta_buffer[{index}])", .buffer a⟩, table)
  | .glsl, _ => .error (.unsupportedRequest d name .buffer)

/-- Renders what a load request asks for. -/
def Dialect.load (d : Dialect) (name : String) (b : Binding α) (table : MetaTable) :
    Except TemplateError (Rendered α × MetaTable) :=
  match b with
  | .int x => d.loadInt name x table
  | .float x => do return (⟨← d.floatText x, .float x⟩, table)
  | .ints xs => d.loadInts name xs table
  | .buffer a => d.loadRegion name a table
  | .sampler _ => .error (.unsupportedRequest d name .bufferLoad)

/-- The components of an integer uniform from this one on, and the patches of the symbolic
ones. -/
def uniformInts (name : String) :
    (component : Nat) → List Dim → Except TemplateError (List Nat × List Patch)
  | _, [] => .ok ([], [])
  | component, x :: xs => do
    let n ← match x.known? with
      | some n => fitInt32 n
      | none => pure 0
    let (ns, patches) ← uniformInts name (component + 1) xs
    let patches := if x.isKnown then patches else ⟨x, .uniform name component⟩ :: patches
    return (n :: ns, patches)

/-- Renders the declaration of a uniform, with its patches. Samplers are bound to `unit`. -/
def Dialect.uniform (d : Dialect) (type name : String) (b : Binding α) (unit : Nat) :
    Except TemplateError (Rendered α × List Patch) :=
  if d ≠ .glsl then .error (.unsupportedRequest d name .uniform)
  else
    let text := "uniform " ++ type ++ " " ++ name ++ ";"
    match b with
    | .int x => do
      let (ns, patches) ← uniformInts name 0 [x]
      return (⟨text, .uniform type (.ints ns)⟩, patches)
    | .ints xs => do
      let (ns, patches) ← uniformInts name 0 xs
      return (⟨text, .uniform type (.ints ns)⟩, patches)
    | .float x => do
      let _ ← d.floatText x
      return (⟨text, .uniform type (.floats [x])⟩, [])
    | .sampler v => .ok (⟨text, .sampler v unit⟩, [])
    | .buffer _ => .error (.unsupportedRequest d name .uniform)

/-- The state of an injection. -/
structure Injection (α : Type) where
  source : String := ""
  table : MetaTable := {}
  uniformPatches : List Patch := []
  /-- The number of samplers so far. -/
  units : Nat := 0
  /-- The names rendered so far with their texts. -/
  texts : List (String × String) := []
  bindings : List (KernelBinding α) := []

namespace Injection

/-- Appends to the source. -/
def emit (s : Injection α) (text : String) : Injection α := { s with source := s.source ++ text }

/-- Appends a binding and the text of its first request. -/
def record (s : Injection α) (name : String) (r : Rendered α) : Injection α :=
  { s.emit r.text with
    texts := (name, r.text) :: s.texts
    bindings := s.bindings ++ [⟨name, r.value⟩] }

/-- Renders the first request of a name. -/
def render (injector : Injector α) (s : Injection α) (request : Request) (name : String)
    (b : Binding α) : Except TemplateError (Injection α) :=
  match request with
  | .loadBuffer _ => do
    let (r, table) ← injector.dialect.load name b s.table
    return { s.record name r with table }
  | .uniform type _ => do
    let (r, patches) ← injector.dialect.uniform type name b s.units
    let units := match b with
      | .sampler _ => s.units + 1
      | _ => s.units
    return { s.record name r with uniformPatches := s.uniformPatches ++ patches, units }
  | .funcName => .ok s

/-- Writes out one segment. -/
def step (injector : Injector α) (s : Injection α) (segment : Segment) :
    Except TemplateError (Injection α) :=
  match segment with
  | .text text => .ok (s.emit text)
  | .request request =>
    match request.binding? with
    | none => .ok (s.emit injector.name)
    | some name =>
      match s.texts.lookup name, injector.bindings.get? name with
      | some text, _ => .ok (s.emit text)
      | none, some b => s.render injector request name b
      | none, none => .error (.missingBinding name)

end Injection

namespace Injector

/-- Finds a request without a binding, or else a binding without a request. -/
def nameFault? (injector : Injector α) (t : Template) : Option TemplateError :=
  match t.names.find? fun name => (injector.bindings.get? name).isNone with
  | some name => some (.missingBinding name)
  | none => (injector.bindings.names.find? (· ∉ t.names)).map .unusedBinding

/-- Writes a template out. The patches of the meta table come before those of uniforms. -/
def inject (injector : Injector α) (t : Template) : Except TemplateError (Injected α) := do
  if let some fault := injector.nameFault? t then throw fault
  let s ← t.segments.foldlM (Injection.step injector) {}
  return {
    source := s.source
    table := s.table
    bindings := s.bindings
    patches := s.table.patches ++ s.uniformPatches }

end Injector

end Rendering

end TensorCompiler
