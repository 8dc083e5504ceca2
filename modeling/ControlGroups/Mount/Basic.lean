import ControlGroups.Text.Fields
import ControlGroups.Text.Numeral

/-! One record of a mount table and the line that holds it. A line has six fields, any number of
optional fields, a separator, and three more fields; which fields are optional is settled by the
first separator after the sixth. -/
namespace ControlGroups

structure Mount where
  id : UInt32
  parent : UInt32
  device : String
  root : String
  point : String
  options : List String
  optionalFields : List String
  kind : String
  source : String
  superOptions : List String
  deriving DecidableEq, Repr

namespace Mount

inductive IdField where
  | mount
  | parent
  deriving DecidableEq, Repr

def IdField.name : IdField → String
  | .mount => "mount_id"
  | .parent => "parent_id"

inductive Refusal where
  | malformed (line : String)
  | badId (field : IdField) (line : String) (cause : Text.NumeralError)
  deriving DecidableEq, Repr

def Refusal.message : Refusal → String
  | .malformed line => "invalid mountinfo line: `" ++ line ++ "`"
  | .badId field line cause =>
    "invalid `" ++ field.name ++ "` in line `" ++ line ++ "`: " ++ cause.message

/-- The field that closes the optional fields. -/
def separator : String := "-"

/-- What stands after the sixth field: the optional fields and the last three, if there are exactly
three after the first separator. -/
def splitTail (tail : List String) : Option (List String × String × String × String) :=
  match tail.dropWhile (· != separator) with
  | [_, kind, source, superOptions] =>
    some (tail.takeWhile (· != separator), kind, source, superOptions)
  | _ => none

/-- Reads a record. Too few fields are noticed before a bad number, and a bad number before a
missing separator. -/
def ofLine (line : String) : Except Refusal Mount :=
  match Text.fields ' ' line with
  | id :: parent :: device :: root :: point :: options :: tail =>
    if tail.length < 4 then .error (.malformed line)
    else do
      let id ← (Text.readNat32 id).mapError (.badId .mount line)
      let parent ← (Text.readNat32 parent).mapError (.badId .parent line)
      match splitTail tail with
      | none => .error (.malformed line)
      | some (optionalFields, kind, source, superOptions) =>
        .ok { id, parent, device, root, point, options := Text.fields ',' options,
              optionalFields, kind, source, superOptions := Text.fields ',' superOptions }
  | _ => .error (.malformed line)

/-- The fields of a record in the order in which a line holds them. -/
def toFields (m : Mount) : List String :=
  [Text.decimal m.id.toNat, Text.decimal m.parent.toNat, m.device, m.root, m.point,
    Text.joinFields ',' m.options] ++ m.optionalFields ++
  [separator, m.kind, m.source, Text.joinFields ',' m.superOptions]

def toLine (m : Mount) : String := Text.joinFields ' ' m.toFields

/-- The tail is the optional fields, a separator and the last three fields. -/
theorem splitTail_eq_some {tail optionalFields : List String} {kind source superOptions : String}
    (h : splitTail tail = some (optionalFields, kind, source, superOptions)) :
    tail = optionalFields ++ [separator, kind, source, superOptions] := by
  unfold splitTail at h
  split at h
  · rename_i s _ _ _ hd
    simp only [Option.some.injEq, Prod.mk.injEq] at h
    obtain ⟨rfl, rfl, rfl, rfl⟩ := h
    have hs : separator = s := by
      have := List.head?_dropWhile_not (· != separator) tail
      rw [hd] at this
      exact (by simpa using this : s = separator).symm
    subst hs
    rw [← hd, List.takeWhile_append_dropWhile]
  · cases h

end Mount
end ControlGroups
