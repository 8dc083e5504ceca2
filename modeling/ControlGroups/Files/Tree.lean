import ControlGroups.Path.Normal
import ControlGroups.Text.Lines

/-! A tree of files, and how a path is followed in it. Unlike the lexical normal form, following a
path asks at every piece whether the place reached so far is a directory, so a path and its normal
spelling may lead to different answers. The tree has no symbolic links, no permissions and no
devices: what stands at a place depends on its names alone, and whatever stands there can be opened.
The readers ask only what is found under a path, not how it was followed. -/
namespace ControlGroups

inductive FileError where
  | notFound
  | notADirectory
  | isADirectory
  | nameTooLong
  | inputOutput
  | nulInName
  | invalidUtf8
  deriving DecidableEq, Repr

def FileError.message : FileError → String
  | .notFound => "No such file or directory (os error 2)"
  | .notADirectory => "Not a directory (os error 20)"
  | .isADirectory => "Is a directory (os error 21)"
  | .nameTooLong => "File name too long (os error 36)"
  | .inputOutput => "Input/output error (os error 5)"
  | .nulInName => "file name contained an unexpected NUL byte"
  | .invalidUtf8 => "stream did not contain valid UTF-8"

/-- What stands at a place of the tree. Reading a faulty file fails behind some bytes. -/
inductive Node where
  | file (content : Bytes)
  | faulty (content : Bytes) (cause : FileError)
  | directory
  deriving DecidableEq, Repr

namespace Node

/-- The bytes that can be read. -/
def content : Node → Bytes
  | .file content => content
  | .faulty content _ => content
  | .directory => []

/-- The failure behind those bytes, if they do not end the file. A directory opens like a file and
fails when it is read. -/
def fault : Node → Option FileError
  | .file _ => none
  | .faulty _ cause => some cause
  | .directory => some .isADirectory

/-- The lines that can be read. One that a failure cuts off is lost. -/
def lines (node : Node) : List Bytes :=
  match node.fault with
  | none => Text.lines node.content
  | some _ => (Text.lines node.content).filter (Text.newline ∈ ·)

/-- The failure that comes instead of the first line, if it does not come behind that line. -/
def firstFault (node : Node) : Option FileError :=
  if Text.newline ∈ node.content then none else node.fault

@[simp] theorem lines_file (bs : Bytes) : (file bs).lines = Text.lines bs := rfl

@[simp] theorem firstFault_file (bs : Bytes) : (file bs).firstFault = none := ite_self none

theorem eq_file_of_fault {node : Node} (h : node.fault = none) : node = .file node.content := by
  cases node with
  | file => rfl
  | faulty => cases h
  | directory => cases h

end Node

/-- A place in the tree: the names that lead to it, the innermost first. -/
abbrev Location := List String

/-- A tree of files, and the directory from which relative paths are seen. -/
structure FileSystem where
  entries : List (Location × Node)
  workingDirectory : Location
  deriving Repr

namespace FileSystem

def maxName : Nat := 255

def maxPath : Nat := 4095

/-- What stands at a place. The root is always there. -/
def node? (fs : FileSystem) : Location → Option Node
  | [] => some .directory
  | place => fs.entries.lookup place

/-- One piece further from a place, which has to be a directory. -/
def enter (fs : FileSystem) (place : Location) (piece : String) : Except FileError Location :=
  match fs.node? place with
  | none => .error .notFound
  | some .directory =>
    if piece = "" ∨ piece = "." then .ok place
    else if piece = ".." then .ok place.tail
    else if maxName < piece.utf8ByteSize then .error .nameTooLong
    else .ok (piece :: place)
  | some _ => .error .notADirectory

def follow (fs : FileSystem) : Location → List String → Except FileError Location
  | place, [] => .ok place
  | place, piece :: pieces =>
    match fs.enter place piece with
    | .error e => .error e
    | .ok next => fs.follow next pieces

def startOf (fs : FileSystem) (p : Path) : Location :=
  if p.isAbsolute then [] else fs.workingDirectory

def find (fs : FileSystem) (p : Path) : Except FileError Node :=
  if '\x00' ∈ p.text.toList then .error .nulInName
  else if p.text = "" then .error .notFound
  else if maxPath < p.text.utf8ByteSize then .error .nameTooLong
  else match fs.follow (fs.startOf p) p.pieces with
    | .error e => .error e
    | .ok place =>
      match fs.node? place with
      | none => .error .notFound
      | some node => .ok node

/-- Whether a path leads to anything. Not to be found is an answer; any other error is not. -/
def exists? (fs : FileSystem) (p : Path) : Except FileError Bool :=
  match fs.find p with
  | .ok _ => .ok true
  | .error .notFound => .ok false
  | .error e => .error e

/-- Puts a node at a place in place of what stood there. -/
def set (fs : FileSystem) (place : Location) (node : Node) : FileSystem :=
  { fs with entries := (place, node) :: fs.entries.filter (·.1 ≠ place) }

/-- Adds the directories that are missing on the way to a place and at it. -/
def withDirectory (fs : FileSystem) : Location → FileSystem
  | [] => fs
  | name :: outer =>
    let fs := fs.withDirectory outer
    if (fs.node? (name :: outer)).isSome then fs else fs.set (name :: outer) .directory

/-- The place that a path names, judged by its text alone. -/
def locate (fs : FileSystem) (p : Path) : Location :=
  let n := p.normalize
  match n.origin with
  | .root => n.names.reverse
  | .here climbs => n.names.reverse ++ fs.workingDirectory.drop climbs

def put (fs : FileSystem) (p : Path) (content : Bytes) : FileSystem :=
  let place := fs.locate p
  (fs.withDirectory place.tail).set place (.file content)

def putDirectory (fs : FileSystem) (p : Path) : FileSystem := fs.withDirectory (fs.locate p)

/-- Takes away what stands at a place and below it. -/
def remove (fs : FileSystem) (p : Path) : FileSystem :=
  { fs with entries := fs.entries.filter fun entry => !(fs.locate p).isSuffixOf entry.1 }

/-- A tree that holds nothing but its working directory. -/
def empty (workingDirectory : Location) : FileSystem :=
  (⟨[], workingDirectory⟩ : FileSystem).withDirectory workingDirectory

end FileSystem
end ControlGroups
