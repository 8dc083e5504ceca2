import ControlGroups.Path.Basic

/-! The components of a path, and the path built again from them one behind the other. A climb
takes back the component in front of it, which is found in the text built so far. -/
namespace ControlGroups.Path

inductive Component where
  | root
  | here
  | up
  | name (text : String)
  deriving DecidableEq, Repr

/-- A component as a path of its own. -/
def Component.toPath : Component → Path
  | .root => ⟨"/"⟩
  | .here => ⟨"."⟩
  | .up => ⟨".."⟩
  | .name text => ⟨text⟩

/-- A piece that leads nowhere. -/
def isIdle (piece : String) : Bool := piece == "" || piece == "."

def dropIdle (pieces : List String) : List String := (pieces.reverse.dropWhile isIdle).reverse

/-- The pieces that lead somewhere. -/
def entries (p : Path) : List String := p.pieces.filter (!isIdle ·)

def Component.ofEntry (entry : String) : Component := if entry = ".." then .up else .name entry

/-- The component that only the start of a path can be: a slash, or a piece that stays. -/
def lead (p : Path) : Option Component :=
  if p.isAbsolute then some .root
  else if p.pieces.head? = some "." then some .here
  else none

/-- The components of a path. Slashes in a row and behind the last piece do not count. -/
def components (p : Path) : List Component := p.lead.toList ++ p.entries.map .ofEntry

/-- The pieces behind the component at the start, which is one character long. -/
def body (p : Path) : List String :=
  Text.fields '/' (String.ofList (p.text.toList.drop p.lead.toList.length))

/-- The path up to its last component. Nothing is taken from the root. -/
def parent (p : Path) : Path :=
  match dropIdle p.body, p.lead with
  | [], some .root => p
  | [], _ => ⟨""⟩
  | body, lead => ⟨(lead.elim "" (·.toPath.text)) ++ Text.joinFields '/' (dropIdle body.dropLast)⟩

/-- A path with one more component behind it. -/
def extend (p : Path) : Component → Path
  | .here => p
  | .up =>
    match p.components.getLast? with
    | some (.name _) => p.parent
    | some .root => p
    | some .up | some .here | none => p.join Component.up.toPath
  | component => p.join component.toPath

/-- The path that the components of a path build. Where they build nothing it stays in its
place. -/
def rebuild (p : Path) : Path :=
  let built := p.components.foldl extend ⟨""⟩
  if built.text = "" then built.join Component.here.toPath else built

end ControlGroups.Path
