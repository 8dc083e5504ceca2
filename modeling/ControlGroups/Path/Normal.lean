import ControlGroups.Path.Basic

/-! The lexical normal form of a path, found by walking its pieces without looking at any file.
A walk drops the names it leaves again, stays at the root when it would climb above it, and counts
the climbs that lead out of where a relative path starts. -/
namespace ControlGroups.Path

/-- Where the names of a normal form start: at the root, or so many levels above the place from
which a relative path is seen. -/
inductive Origin where
  | root
  | here (climbs : Nat)
  deriving DecidableEq, Repr

/-- A normal form: an origin and the names that lead down from it. -/
structure Normal where
  origin : Origin
  names : List String
  deriving DecidableEq, Repr

/-- One level above an origin. There is none above the root. -/
def Origin.climb : Origin → Origin
  | .root => .root
  | .here climbs => .here (climbs + 1)

namespace Normal

def isAbsolute (n : Normal) : Bool :=
  match n.origin with
  | .root => true
  | .here _ => false

/-- The place from which an absolute or a relative path is walked. -/
def start (absolute : Bool) : Normal := ⟨if absolute then .root else .here 0, []⟩

def up (n : Normal) : Normal :=
  if n.names = [] then { n with origin := n.origin.climb }
  else { n with names := n.names.dropLast }

def step (n : Normal) (piece : String) : Normal :=
  if piece = "" ∨ piece = "." then n
  else if piece = ".." then n.up
  else { n with names := n.names ++ [piece] }

def walk (n : Normal) (pieces : List String) : Normal := pieces.foldl step n

/-- The components by which two normal forms are compared and with which they are written. A
relative form without any is the place itself. -/
def components (n : Normal) : List String :=
  match n.origin, n.names with
  | .root, names => names
  | .here 0, [] => ["."]
  | .here climbs, names => List.replicate climbs ".." ++ names

/-- The one spelling of a normal form. -/
def toPath (n : Normal) : Path :=
  ⟨(if n.isAbsolute then "/" else "") ++ Text.joinFields '/' n.components⟩

/-- What remains of the second list after the first, if it starts with it. -/
def after? : List String → List String → Option (List String)
  | [], names => some names
  | r :: root, n :: names => if r = n then after? root names else none
  | _ :: _, [] => none

/-- The components that lead from `root` to the place, if it lies under `root`. -/
def relativeTo? (n root : Normal) : Option (List String) :=
  if n.isAbsolute = root.isAbsolute then after? root.components n.components else none

@[simp] theorem walk_nil (n : Normal) : n.walk [] = n := rfl

@[simp] theorem walk_cons (n : Normal) (piece : String) (pieces : List String) :
    n.walk (piece :: pieces) = (n.step piece).walk pieces := rfl

@[simp] theorem walk_append (n : Normal) (pieces more : List String) :
    n.walk (pieces ++ more) = (n.walk pieces).walk more := List.foldl_append

@[simp] theorem isAbsolute_up (n : Normal) : n.up.isAbsolute = n.isAbsolute := by
  obtain ⟨origin, names⟩ := n
  by_cases h : names = [] <;> cases origin <;> simp [up, isAbsolute, Origin.climb, h]

@[simp] theorem isAbsolute_step (n : Normal) (piece : String) :
    (n.step piece).isAbsolute = n.isAbsolute := by
  by_cases h : piece = "" ∨ piece = "."
  · simp [step, h]
  · by_cases hu : piece = ".."
    · simp [step, hu]
    · simp [step, h, hu, isAbsolute]

@[simp] theorem isAbsolute_walk (n : Normal) (pieces : List String) :
    (n.walk pieces).isAbsolute = n.isAbsolute := by
  induction pieces generalizing n with
  | nil => rfl
  | cons piece pieces ih => simp [ih]

/-- A list remains after another exactly where the two in a row are the whole. -/
theorem after?_eq_some_iff {root names rest : List String} :
    after? root names = some rest ↔ names = root ++ rest := by
  induction root generalizing names with
  | nil => simp [after?]
  | cons r root ih =>
    cases names with
    | nil => simp [after?]
    | cons n names => by_cases h : r = n <;> simp [after?, h, ih, eq_comm]

end Normal

def normalize (p : Path) : Normal := (Normal.start p.isAbsolute).walk p.pieces

def clean (p : Path) : Path := p.normalize.toPath

@[simp] theorem isAbsolute_normalize (p : Path) : p.normalize.isAbsolute = p.isAbsolute := by
  rw [normalize, Normal.isAbsolute_walk]
  cases p.isAbsolute <;> rfl

end ControlGroups.Path
