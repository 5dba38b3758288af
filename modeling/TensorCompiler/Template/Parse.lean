import TensorCompiler.Template.Basic
import TensorCompiler.Template.Error
import TensorCompiler.Text.Blank
/-!
# Parsing templates

Requests stand between delimiters `%%`, which are taken from the left and do not overlap. There
are three of them, with optional blanks around each part:

* `FUNC_NAME`,
* `LOAD_BUFFER(name)`,
* `UNIFORM(type, name)`.

Types and names are non-empty and consist of ASCII letters, digits and underscores.
-/

namespace TensorCompiler

/-- The pieces of a text between the delimiters. -/
def splitDelimiters : List Char → List (List Char)
  | [] => [[]]
  | '%' :: '%' :: rest => [] :: splitDelimiters rest
  | c :: rest =>
    match splitDelimiters rest with
    | piece :: pieces => (c :: piece) :: pieces
    | [] => [[c]]

/-- The word is one that types and names consist of. -/
def isName (word : List Char) : Bool :=
  !word.isEmpty && word.all fun c => c.isAlphanum || c == '_'

/-- The request with this text. -/
def Request.parse? (text : List Char) : Option Request := do
  let text := Text.trim text
  if text = "FUNC_NAME".toList then return funcName
  let (head, rest) ← Text.cut? '(' text
  let arguments ← Text.dropLast? ')' rest
  let head := Text.trim head
  if head = "LOAD_BUFFER".toList then
    let name := Text.trim arguments
    guard (isName name)
    return loadBuffer (String.ofList name)
  else if head = "UNIFORM".toList then
    let (type, name) ← Text.cut? ',' arguments
    let type := Text.trim type
    let name := Text.trim name
    guard (isName type && isName name)
    return uniform (String.ofList type) (String.ofList name)
  else
    none

namespace Template

/-- The segment of a text outside of delimiters; an empty one has none. -/
def outer (text : List Char) : List Segment :=
  if text.isEmpty then [] else [.text (String.ofList text)]

/-- The segments of alternating outer texts and requests, beginning and ending with a text. -/
def ofPieces : List (List Char) → Except TemplateError (List Segment)
  | text :: request :: rest =>
    match Request.parse? request with
    | some r => do return outer text ++ .request r :: (← ofPieces rest)
    | none => .error (.malformed (String.ofList request))
  | [text] => .ok (outer text)
  | [] => .ok []

/-- The template with this text. -/
def parse (source : String) : Except TemplateError Template := do
  let pieces := splitDelimiters source.toList
  if pieces.length % 2 = 0 then throw .unbalanced
  return ⟨← ofPieces pieces⟩

end Template

end TensorCompiler
