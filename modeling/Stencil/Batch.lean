import Stencil.Compile

-- Compiling all templates below a directory, in the order of their paths.

namespace Stencil

namespace Disk

-- The part of a file name behind its last point, unless nothing stands before that point.
def extension? (name : String) : Option String :=
  let reversed := name.toList.reverse
  let last := reversed.takeWhile (· ≠ '.')
  let before := (reversed.dropWhile (· ≠ '.')).drop 1
  if name = ".." || before.isEmpty then none else some (String.ofList last.reverse)

def isTemplateFile (names : List String) : Bool :=
  match names.getLast? with
  | some name => extension? name = some "json"
  | none => false

-- The files below a place, by their names from there down.
def filesBelow (disk : Disk) (names : List String) : List (List String) :=
  disk.entries.filterMap fun entry =>
    match entry.2 with
    | .file _ => if names.isPrefixOf entry.1 then some (entry.1.drop names.length) else none
    | .directory => none

-- Paths are compared part by part.
def precedes (a b : List String) : Bool := !(b < a)

-- Whether a text can only name a directory.
def namesDirectory (text : String) : Bool :=
  match (Path.pieces text.toList).reverse with
  | last :: _ :: _ => last.isEmpty || last = ['.']
  | _ => false

-- The path of a file below a directory, as it is found.
def below (dir : String) (names : List String) : String :=
  (if dir.toList.getLast? = some '/' then dir else dir ++ "/") ++ String.intercalate "/" names

-- The files at or below a path that are called templates, in order.
def candidates (disk : Disk) (dir : String) : List String :=
  match disk.resolve (Path.ofText dir) with
  | .error _ => []
  | .ok .above => []
  | .ok (.below names) => match disk.entry? names with
    | some (.file _) => if isTemplateFile names && !namesDirectory dir then [dir] else []
    | _ => (((disk.filesBelow names).filter isTemplateFile).mergeSort precedes).map (below dir)

-- The templates at or below a path, in order, by the paths under which they are found. A file is found only
-- under a path whose text can be used.
def templateFiles (disk : Disk) (dir : String) : List String :=
  (disk.candidates dir).filter fun source => (textFault? source).isNone

end Disk

-- The outcome for one file of a batch.
structure CompiledFile where
  source : String
  output : Except CompileError String

namespace Disk

-- Compiles one file under its own path.
def compileFile (disk : Disk) (source : String) (options : Options) (shared : Names) :
    Except CompileError String × Names :=
  let options := { options with filePath := source }
  match disk.load (.ofText source) with
  | .ok template => template.compile options disk.loader shared
  | .error fault => (.error ⟨.template fault, source, .zero⟩, shared)

-- Compiles files one after the other; each sees the shared names that the ones before it have left.
def compileFiles (disk : Disk) (options : Options) : List String → Names → List CompiledFile × Names
  | [], shared => ([], shared)
  | source :: rest, shared =>
    let (output, shared) := disk.compileFile source options shared
    let (others, shared) := disk.compileFiles options rest shared
    (⟨source, output⟩ :: others, shared)

def compileDirectory (disk : Disk) (dir : String) (options : Options) (shared : Names) :
    List CompiledFile × Names :=
  disk.compileFiles options (disk.templateFiles dir) shared

end Disk

end Stencil
