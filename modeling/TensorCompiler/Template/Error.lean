/-!
# Target dialects and template errors
-/

namespace TensorCompiler

/-- The language that the bindings of a template are written in. -/
inductive Dialect where
  /-- C-like functions over a static, a dynamic and a meta buffer. -/
  | c
  /-- Compute shaders over one data buffer, in which the dynamic space begins at `dynamicBase`,
  and a meta buffer. -/
  | wgsl (dynamicBase : Nat)
  /-- Fragment shaders, whose buffers are textures bound to uniforms. -/
  | glsl
  deriving DecidableEq, Repr

def Dialect.text : Dialect → String
  | c => "C"
  | wgsl base => s!"Wgsl \x7b dynamic_base: {base} \x7d"
  | glsl => "Glsl"

/-- What a binding would have to be written as. -/
inductive RequestForm where
  | symbolicLiteral | inlineTable | buffer | bufferLoad | uniform
  deriving DecidableEq, Repr

def RequestForm.text : RequestForm → String
  | symbolicLiteral => "a symbolic literal"
  | inlineTable => "an inline table"
  | buffer => "a buffer"
  | bufferLoad => "a buffer load"
  | uniform => "a uniform"

inductive TemplateError where
  /-- A delimiter without its partner. -/
  | unbalanced
  /-- Something between delimiters that is no request. -/
  | malformed (piece : String)
  | missingBinding (name : String)
  | unusedBinding (name : String)
  | unsupportedRequest (dialect : Dialect) (name : String) (form : RequestForm)
  | overflow (value : Nat)
  /-- A scalar without a literal, by its text. -/
  | nonFinite (value : String)
  deriving DecidableEq, Repr

def TemplateError.message : TemplateError → String
  | unbalanced => "malformed template request `unbalanced `%%``"
  | malformed piece => "malformed template request `" ++ piece ++ "`"
  | missingBinding name => "template requests `" ++ name ++ "` but nothing is bound to it"
  | unusedBinding name => "binding `" ++ name ++ "` is not referenced by the template"
  | unsupportedRequest dialect name form =>
    dialect.text ++ " cannot render `" ++ name ++ "` as " ++ form.text
  | overflow value => s!"value {value} does not fit in a 32-bit integer"
  | nonFinite value => "value " ++ value ++ " is not finite"

end TensorCompiler
