import ControlGroups.Content
import ControlGroups.Membership.Basic
import ControlGroups.Mount.Basic

/-! Everything that can go wrong while the limits of a process are looked up. -/
namespace ControlGroups

/-- Why a line of one of the two tables is refused. -/
inductive LineError where
  | mount (cause : Mount.Refusal)
  | membership (cause : Membership.Refusal)
  deriving DecidableEq, Repr

def LineError.message : LineError → String
  | .mount cause => cause.message
  | .membership cause => cause.message

/-- Why a query fails, with the path of the file that it concerns. -/
inductive Error where
  | fileOpen (path : Path) (cause : FileError)
  | readLine (path : Path) (cause : FileError)
  | parse (path : Path) (cause : LineError)
  | notExposed (mountPoint root group : Path)
  | existenceCheck (path : Path) (cause : FileError)
  | content (path : Path) (cause : ContentError)
  | noUnifiedMount (path : Path)
  | unexpectedEnd (path : Path)
  deriving DecidableEq, Repr

def Error.message : Error → String
  | .fileOpen path cause => "failed to open file `" ++ path.text ++ "`: " ++ cause.message
  | .readLine path cause =>
    "failed to read line for file `" ++ path.text ++ "`: " ++ cause.message
  | .parse path cause => "failed to parse line in file `" ++ path.text ++ "`: " ++ cause.message
  | .notExposed mountPoint root group =>
    "cgroup path `" ++ group.text ++ "` is not exposed from mount point `" ++ mountPoint.text ++
      "` with root `" ++ root.text ++ "`"
  | .existenceCheck path cause =>
    "failed to check if path `" ++ path.text ++ "` exists: " ++ cause.message
  | .content path cause => "failed to read stat file `" ++ path.text ++ "`: " ++ cause.message
  | .noUnifiedMount path => "failed to detect cgroup v2 mount point in file `" ++ path.text ++ "`"
  | .unexpectedEnd path => "unexpected end of file `" ++ path.text ++ "`"

end ControlGroups
