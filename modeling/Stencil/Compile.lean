import Stencil.Disk
import Stencil.Walk.Content

-- Compiling a template: the walk over its nodes, with the files that it includes.

namespace Stencil

namespace Walk

-- The walk with the templates that can still be included. A template is taken away while its own nodes
-- are compiled, so `left`, the number of templates at hand, bounds the depth of includes.
def nodes (options : Options) (fault : Path → Fault) : (left : Nat) → List (Path × Template) → Compiler
  | 0, _ => contentTrees ⟨options, fault, fun _ => none⟩
  | left + 1, templates => contentTrees ⟨options, fault, fun path =>
      (templates.lookup path).map fun template =>
        (template, nodes options fault left (templates.filter fun entry => entry.1 ≠ path))⟩

end Walk

namespace Session

def start (options : Options) (shared : Names) : Session where
  document := .empty
  fragments := .empty
  switches := []
  scope := .empty
  registry := .create options.registryScope
  shared := shared
  file := (Path.ofText options.filePath).normalize
  including := []

end Session

namespace Template

-- The walk over a whole template, from the shared names that are known before it.
def walk (template : Template) (options : Options) (loader : Loader) (shared : Names) :
    Except CompileError Code × Session :=
  let start := Session.start options shared
  let (trees, document) := start.document.importPage template.nodes none
  (Walk.nodes options loader.fault loader.templates.length loader.templates .outermost Output.rootSink trees).run.run
    { start with document := document }

-- The closure that a template compiles to, and the shared names known afterwards. Names of components that
-- were imported before a failure stay known.
def compile (template : Template) (options : Options) (loader : Loader) (shared : Names) :
    Except CompileError String × Names :=
  let (outcome, session) := template.walk options loader shared
  (outcome.map fun code => Output.opening ++ code.render session.scope ++ Output.closing, session.shared)

-- Compiles the text of a template, with includes from files.
def compileText (text : String) (options : Options) (disk : Disk) (shared : Names) :
    Except CompileError String × Names :=
  match ofText? text with
  | some template => template.compile options disk.loader shared
  | none => (.error ⟨.template .malformed, options.filePath, .zero⟩, shared)

end Template

end Stencil
