/-!
# Kernel templates

A template is source text with requests in between. A request stands for the text of something
bound to the template under a name, or for the name of the kernel. Keeping requests apart from
text means that missing and unused bindings are found by comparing names.
-/

namespace TensorCompiler

inductive Request where
  /-- The expression that accesses a buffer, or a value written out. -/
  | loadBuffer (name : String)
  /-- The declaration of a uniform. -/
  | uniform (type name : String)
  /-- The name of the kernel. -/
  | funcName
  deriving DecidableEq, Repr

/-- The name of the binding that a request needs. -/
def Request.binding? : Request → Option String
  | loadBuffer name => some name
  | uniform _ name => some name
  | funcName => none

inductive Segment where
  | text (text : String)
  | request (request : Request)
  deriving DecidableEq, Repr

namespace Segment

instance : Coe String Segment := ⟨text⟩

instance : Coe Request Segment := ⟨request⟩

end Segment

/-- The segments of one line. -/
abbrev Line := List Segment

structure Template where
  segments : List Segment
  deriving DecidableEq, Repr

namespace Template

/-- The requests of a template in their order. -/
def requests (t : Template) : List Request :=
  t.segments.filterMap fun
    | .request r => some r
    | .text _ => none

/-- The names that a template requests, in their order. -/
def names (t : Template) : List String := t.requests.filterMap Request.binding?

/-- The template made of these blocks of lines. -/
def ofBlocks (blocks : List (List Line)) : Template :=
  ⟨blocks.flatten.flatMap fun line => line ++ [.text "\n"]⟩

end Template

end TensorCompiler
