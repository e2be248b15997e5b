import Stencil.Template.Format

-- The options of a compilation.

namespace Stencil

-- How long an imported component stays known: to every later compilation, or to this one only.
inductive RegistryScope where
  | process
  | session
  deriving DecidableEq, Repr

namespace RegistryScope

def name : RegistryScope → String
  | .process => "process"
  | .session => "session"

def ofName? (name : String) : Option RegistryScope :=
  if name = "process" then some .process
  else if name = "session" then some .session
  else none

end RegistryScope

-- `filePath` names the template in errors and is the base of its includes; `singleTags` are written
-- without children even when they are not self-closing; `componentExtension` is put behind the path of an
-- imported component.
structure Options where
  filePath : String
  singleTags : List String
  registryScope : RegistryScope
  componentExtension : String

namespace Options

def standard : Options := ⟨"", ["input"], .process, ".php"⟩

open Json (Body)

def ofJson? (json : Json) : Option Options := do
  match (← json.body?).slots? ["filePath", "singleTags", "registryScope", "componentExtension"] with
  | some [filePath, singleTags, registryScope, componentExtension] =>
    some ⟨← Body.optional filePath standard.filePath Json.string?,
      ← Body.optional singleTags standard.singleTags fun tags => do (← tags.array?).mapM Json.string?,
      ← Body.optional registryScope standard.registryScope fun scope => scope.choice?.bind RegistryScope.ofName?,
      ← Body.optional componentExtension standard.componentExtension Json.string?⟩
  | _ => none

def toJson (options : Options) : Json :=
  .object [("filePath", .string options.filePath),
    ("singleTags", .array (options.singleTags.map Json.string)),
    ("registryScope", .string options.registryScope.name),
    ("componentExtension", .string options.componentExtension)]

def ofText? (text : String) : Option Options := do
  let json ← Json.ofText? text
  if json.declaredReadable ["filePath", "singleTags", "registryScope", "componentExtension"]
    (Json.depthLimit - 1) then ofJson? json else none

end Options

end Stencil
