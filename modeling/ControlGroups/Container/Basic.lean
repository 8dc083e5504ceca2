import ControlGroups.Error

/-! Signs that a process runs in a container: a marker file, or a group whose name only container
runtimes give. Both are looked for under the path as it is spelled. -/
namespace ControlGroups.Container

def markerPath : Path := ⟨"/.dockerenv"⟩

def membershipPath : Path := ⟨"/proc/self/cgroup"⟩

/-- What the membership of a process in a container holds. -/
def groupMarkers : List String := [":/docker/", ":/kubepods/"]

/-- Whether one list of characters stands in another in one piece. -/
def occursIn (needle : List Char) : List Char → Bool
  | [] => needle.isEmpty
  | c :: cs => needle.isPrefixOf (c :: cs) || occursIn needle cs

def isMarked (s : String) : Bool := groupMarkers.any fun marker => occursIn marker.toList s.toList

def hasMarkerFile (fs : FileSystem) (path : Path) : Except Error Bool :=
  (fs.exists? path).mapError (.existenceCheck path)

/-- Whether a line of a membership file holds a marker. The first one that does is the last one
read, so a failure to read counts only where none of the lines before it is marked. -/
def hasGroupMarker (fs : FileSystem) (path : Path) : Except Error Bool :=
  match fs.find path with
  | .error e => .error (.fileOpen path e)
  | .ok node =>
    if node.lines.any fun l => isMarked (Text.decodeLossy l) then .ok true
    else match node.fault with
      | none => .ok false
      | some e => .error (.readLine path e)

/-- A list occurs in another where something stands before it and something after it. -/
theorem occursIn_iff {needle cs : List Char} : occursIn needle cs = true ↔ needle <:+: cs := by
  induction cs with
  | nil => simp [occursIn]
  | cons c cs ih => simp [occursIn, ih, List.infix_cons_iff]

end ControlGroups.Container
