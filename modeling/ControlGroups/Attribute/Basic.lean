import ControlGroups.Error

/-! Attribute files. Each holds one value on its first line, and a file that is not there means
that nothing is set. -/
namespace ControlGroups

/-- How the value of an attribute is read from the text of the first line. -/
structure Attribute (α : Type) where
  parse : String → Except ContentError α

namespace Attribute

variable {α : Type}

/-- Reads the value from the first line of some bytes and gives back the other lines. -/
def read (a : Attribute α) (bs : Bytes) : Except ContentError α × Bytes :=
  ((Content.firstValue bs).1 >>= a.parse, (Content.firstValue bs).2)

/-- Reads the value of a node, which fails where the first line cannot be read to its end. -/
def readNode (a : Attribute α) (node : Node) : Except ContentError α :=
  match node.firstFault with
  | none => (a.read node.content).1
  | some cause => .error (.file cause)

/-- Reads the value of a file, if there is one. -/
def readAt (fs : FileSystem) (path : Path) (a : Attribute α) : Except Error (Option α) :=
  match fs.find path.clean with
  | .error .notFound => .ok none
  | .error e => .error (.fileOpen path.clean e)
  | .ok node =>
    match a.readNode node with
    | .ok value => .ok (some value)
    | .error .noValue => .error (.unexpectedEnd path.clean)
    | .error e => .error (.content path.clean e)

/-- Reads the value of a file of a directory. -/
def readIn (fs : FileSystem) (directory : Path) (name : String) (a : Attribute α) :
    Except Error (Option α) :=
  readAt fs (directory.join ⟨name⟩) a

@[simp] theorem read_nil (a : Attribute α) : a.read [] = (.error .noValue, []) := rfl

/-- A reader stops behind the first line. -/
@[simp] theorem read_rest (a : Attribute α) (bs : Bytes) :
    (a.read bs).2 = (Text.cutLine bs).2 := by
  simp [read]

@[simp] theorem readNode_file (a : Attribute α) (bs : Bytes) :
    a.readNode (.file bs) = (a.read bs).1 := by
  simp [readNode, Node.content]

theorem readAt_of_notFound {fs : FileSystem} {path : Path} (a : Attribute α)
    (h : fs.find path.clean = .error .notFound) : readAt fs path a = .ok none := by
  simp [readAt, h]

end Attribute
end ControlGroups
