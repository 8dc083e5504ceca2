import ControlGroups.Text.Fields
import ControlGroups.Text.Numeral

/-! One record of a membership file, which tells in which group of a hierarchy a process is, and
the line that holds it. -/
namespace ControlGroups

/-- The group of a process in the hierarchy of some controllers. The unified hierarchy has one
controller, with an empty name. -/
structure Membership where
  id : UInt32
  controllers : List String
  group : String
  deriving DecidableEq, Repr

namespace Membership

/-- Why a line holds no membership. -/
inductive Refusal where
  | malformed (line : String)
  | badId (line : String) (cause : Text.NumeralError)
  deriving DecidableEq, Repr

def Refusal.message : Refusal → String
  | .malformed line => "invalid cgroup line: `" ++ line ++ "`"
  | .badId line cause => "invalid hierarchy id in line `" ++ line ++ "`: " ++ cause.message

/-- Reads a record of exactly three fields. -/
def ofLine (line : String) : Except Refusal Membership :=
  match Text.fields ':' line with
  | [id, controllers, group] => do
    let id ← (Text.readNat32 id).mapError (.badId line)
    .ok { id, controllers := Text.fields ',' controllers, group }
  | _ => .error (.malformed line)

def toLine (m : Membership) : String :=
  Text.joinFields ':' [Text.decimal m.id.toNat, Text.joinFields ',' m.controllers, m.group]

end Membership
end ControlGroups
