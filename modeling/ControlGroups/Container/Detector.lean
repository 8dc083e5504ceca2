import ControlGroups.Container.Basic

/-! Where a process runs, found out once. The first query looks at the files, and its answer is the
answer to every later one. -/
namespace ControlGroups

inductive Environment where
  | host
  | container
  deriving DecidableEq, Repr

/-- Where a process with these files runs. A sign that cannot be looked for is not there. -/
def Environment.detect (fs : FileSystem) (marker membership : Path) : Environment :=
  if Container.hasMarkerFile fs marker matches .ok true then .container
  else if Container.hasGroupMarker fs membership matches .ok true then .container
  else .host

/-- The files in which a detector looks, and its answer after the first query. -/
structure Detector where
  marker : Path
  membership : Path
  answer : Option Environment
  deriving DecidableEq, Repr

namespace Detector

def new (marker membership : Path) : Detector := ⟨marker, membership, none⟩

def ofProcess : Detector := new Container.markerPath Container.membershipPath

/-- The answer of a detector to a query. -/
def environment (fs : FileSystem) (d : Detector) : Environment :=
  d.answer.getD (.detect fs d.marker d.membership)

/-- Whether a detector answers that the process runs in a container. -/
def isContainer (fs : FileSystem) (d : Detector) : Bool := d.environment fs = .container

def latch (fs : FileSystem) (d : Detector) : Detector := { d with answer := d.environment fs }

@[simp] theorem environment_new (fs : FileSystem) (marker membership : Path) :
    (new marker membership).environment fs = .detect fs marker membership := rfl

/-- After a query the files no longer matter. -/
@[simp] theorem environment_latch (fs later : FileSystem) (d : Detector) :
    (d.latch fs).environment later = d.environment fs := rfl

@[simp] theorem latch_latch (fs later : FileSystem) (d : Detector) :
    (d.latch fs).latch later = d.latch fs := rfl

end Detector
end ControlGroups
