import ControlGroups.Inspector

/-! A run of queries while files come and go. Detectors and inspectors keep nothing between queries
but the answer to whether the process runs in a container. -/
namespace ControlGroups

/-- What happens in a run. Detectors and inspectors are known by name. -/
inductive Command where
  | put (path : Path) (content : Bytes)
  | putDirectory (path : Path)
  | remove (path : Path)
  | newDetector (name : String) (marker membership : Path)
  | environment (name : String)
  | isContainer (name : String)
  | newInspector (name : String) (settings : Settings)
  | inContainer (name : String)
  | isUnified (name : String)
  | controllers (name : String)
  | cpuQuota (name : String)
  | memoryQuota (name : String)
  | memoryUsage (name : String)
  deriving DecidableEq, Repr

inductive Answer where
  | done
  | environment (value : Environment)
  | container (value : Bool)
  | unified (value : Except Error Bool)
  | controllers (value : Except Error Controllers)
  | processors (value : Except Error Allowance)
  | bytes (value : Except Error Int)

/-- The machine, the detector that inspectors of the running process share, and what has been
created so far. -/
structure Session where
  machine : Machine
  shared : Detector
  detectors : String → Detector
  inspectors : String → Inspector

namespace Session

/-- A run that has created nothing. Every name stands for the running process. -/
def new (machine : Machine) : Session where
  machine := machine
  shared := .ofProcess
  detectors := fun _ => .ofProcess
  inspectors := fun _ => .ofProcess

def withFiles (s : Session) (f : FileSystem → FileSystem) : Session :=
  { s with machine := { s.machine with files := f s.machine.files } }

def setDetector (s : Session) (name : String) (d : Detector) : Session :=
  { s with detectors := fun n => if n = name then d else s.detectors n }

def setInspector (s : Session) (name : String) (i : Inspector) : Session :=
  { s with inspectors := fun n => if n = name then i else s.inspectors n }

def latchDetector (s : Session) (name : String) : Session :=
  s.setDetector name ((s.detectors name).latch s.machine.files)

/-- The session after an inspector was asked whether the process runs in a container. -/
def latchInspector (s : Session) (name : String) : Session :=
  let i := s.inspectors name
  { s.setInspector name (i.latch s.machine.files) with
    shared := i.latchShared s.machine.files s.shared }

def answer (s : Session) : Command → Answer
  | .environment name => .environment ((s.detectors name).environment s.machine.files)
  | .isContainer name => .container ((s.detectors name).isContainer s.machine.files)
  | .inContainer name => .container ((s.inspectors name).inContainer s.machine.files s.shared)
  | .isUnified name => .unified ((s.inspectors name).isUnified s.machine.files)
  | .controllers name => .controllers ((s.inspectors name).controllers s.machine.files)
  | .cpuQuota name => .processors ((s.inspectors name).cpuQuota s.machine s.shared)
  | .memoryQuota name => .bytes ((s.inspectors name).memoryQuota s.machine.files)
  | .memoryUsage name => .bytes ((s.inspectors name).memoryUsage s.machine.files)
  | .put .. | .putDirectory _ | .remove _ | .newDetector .. | .newInspector .. => .done

/-- The session after a command. Only the questions that need the answer latch a detector. -/
def next (s : Session) : Command → Session
  | .put path content => s.withFiles (·.put path content)
  | .putDirectory path => s.withFiles (·.putDirectory path)
  | .remove path => s.withFiles (·.remove path)
  | .newDetector name marker membership => s.setDetector name (.new marker membership)
  | .newInspector name settings => s.setInspector name (.ofSettings settings)
  | .environment name | .isContainer name => s.latchDetector name
  | .inContainer name | .cpuQuota name => s.latchInspector name
  | .isUnified _ | .controllers _ | .memoryQuota _ | .memoryUsage _ => s

def after (s : Session) (commands : List Command) : Session := commands.foldl next s

@[simp] theorem after_nil (s : Session) : s.after [] = s := rfl

@[simp] theorem after_cons (s : Session) (c : Command) (cs : List Command) :
    s.after (c :: cs) = (s.next c).after cs := rfl

@[simp] theorem detectors_setDetector (s : Session) (name n : String) (d : Detector) :
    (s.setDetector name d).detectors n = if n = name then d else s.detectors n := rfl

@[simp] theorem inspectors_setInspector (s : Session) (name n : String) (i : Inspector) :
    (s.setInspector name i).inspectors n = if n = name then i else s.inspectors n := rfl

end Session
end ControlGroups
