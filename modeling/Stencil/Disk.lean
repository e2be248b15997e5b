import Stencil.Diagnostic
import Stencil.Path
import Stencil.Template.Format

-- Where included templates come from: a loader, and the files below a working directory as a plain value.

namespace Stencil

-- Finitely many templates by path. Every other path fails, for the reason given.
structure Loader where
  templates : List (Path × Template)
  fault : Path → Fault

def Loader.load (loader : Loader) (path : Path) : Except Fault Template :=
  match loader.templates.lookup path with
  | some template => .ok template
  | none => .error (loader.fault path)

-- A loader over sources held in memory. A source that is no template is malformed, and the reason why a
-- path without a source cannot be read is the path itself.
def Loader.ofSources (sources : List (Path × Option Template)) : Loader where
  templates := sources.filterMap fun source => source.2.map fun template => (source.1, template)
  fault path :=
    if sources.any fun source => source.1 = path then .malformed else .unreadable path.text

inductive DiskEntry where
  | file (bytes : ByteArray)
  | directory

-- Files and directories by their names from the working directory down. Directories on the way to an
-- entry need no entry of their own.
structure Disk where
  entries : List (List String × DiskEntry)

inductive ReadError where
  | nulByte
  | tooLong
  | missing
  | notDirectory
  | isDirectory
  | notText
  deriving DecidableEq, Repr

def ReadError.message : ReadError → String
  | .nulByte => "file name contained an unexpected NUL byte"
  | .tooLong => "File name too long (os error 36)"
  | .missing => "No such file or directory (os error 2)"
  | .notDirectory => "Not a directory (os error 20)"
  | .isDirectory => "Is a directory (os error 21)"
  | .notText => "stream did not contain valid UTF-8"

-- A place that exists: below the working directory, or one of the directories above it.
inductive Spot where
  | below (names : List String)
  | above
  deriving DecidableEq, Repr

namespace Disk

-- The most bytes that a name can have.
def nameLimit : Nat := 255

-- The most bytes that the text of a path can have.
def pathLimit : Nat := 4095

-- What is wrong with the text of a path, whatever there is on the disk.
def textFault? (text : String) : Option ReadError :=
  if text.toList.contains '\x00' then some .nulByte
  else if pathLimit < text.utf8ByteSize then some .tooLong
  else none

def lookup? (disk : Disk) (names : List String) : Option DiskEntry := disk.entries.lookup names

-- What stands at a place below the working directory.
def entry? (disk : Disk) (names : List String) : Option DiskEntry :=
  match disk.lookup? names with
  | some entry => some entry
  | none =>
    if names.isEmpty || disk.entries.any fun entry => names.isPrefixOf entry.1 then some .directory else none

-- Goes one part further. Only a directory has anything behind it, and a directory is only asked for names
-- that are not too long.
def step (disk : Disk) (spot : Spot) (part : PathPart) : Except ReadError Spot :=
  match spot with
  | .above => match part with
    | .name text => .error (if nameLimit < text.utf8ByteSize then .tooLong else .missing)
    | _ => .ok .above
  | .below names => match disk.entry? names with
    | none => .error .missing
    | some (.file _) => .error .notDirectory
    | some .directory => match part with
      | .current => .ok spot
      | .up => .ok (if names.isEmpty then .above else .below names.dropLast)
      | .name text =>
        if nameLimit < text.utf8ByteSize then .error .tooLong
        else if (disk.entry? (names ++ [text])).isSome then .ok (.below (names ++ [text])) else .error .missing

-- The place that a path leads to. The empty path leads nowhere.
def resolve (disk : Disk) (path : Path) : Except ReadError Spot :=
  if path.parts.isEmpty && !path.absolute then .error .missing
  else path.parts.foldlM disk.step (if path.absolute then .above else .below [])

def textOf (bytes : ByteArray) : Except ReadError String :=
  match String.fromUTF8? bytes with
  | some text => .ok text
  | none => .error .notText

-- The text of the file at a path.
def read (disk : Disk) (path : Path) : Except ReadError String :=
  match textFault? path.text with
  | some e => .error e
  | none => do
    match ← disk.resolve path with
    | .above => .error .isDirectory
    | .below names => match disk.entry? names with
      | some (.file bytes) => textOf bytes
      | some .directory => .error .isDirectory
      | none => .error .missing

-- The template in the file at a path.
def load (disk : Disk) (path : Path) : Except Fault Template :=
  match disk.read path with
  | .error e => .error (.unreadable e.message)
  | .ok text => match Template.ofText? text with
    | some template => .ok template
    | none => .error .malformed

-- The path of an entry, in normal form.
def pathOf (names : List String) : Path := ⟨false, names.map .name⟩

-- The templates among the files, for includes.
def loader (disk : Disk) : Loader where
  templates := disk.entries.filterMap fun entry =>
    match disk.load (pathOf entry.1) with
    | .ok template => some (pathOf entry.1, template)
    | .error _ => none
  fault path :=
    match disk.read path with
    | .ok _ => .malformed
    | .error e => .unreadable e.message

end Disk

end Stencil
