import ControlGroups.Files.Tree
import ControlGroups.Text.Blank
import ControlGroups.Text.Lines
import ControlGroups.Text.Numeral

/-! What can be wrong with the content of a file of numbers, and the first line of such a file,
which is all that a file of one value is read for. -/
namespace ControlGroups

/-- Why the content of a file is refused. Lines are counted from one. -/
inductive ContentError where
  | duplicateField (field : String) (line : Nat)
  | invalidKeyValue (key value : String) (line : Nat) (cause : Text.NumeralError)
  | invalidValue (value : String) (line : Nat) (cause : Text.NumeralError)
  | invalidRange (range : String) (line : Nat)
  | noValue
  | file (cause : FileError)
  deriving DecidableEq, Repr

/-- The wording of a content error. -/
def ContentError.message : ContentError → String
  | .duplicateField field line =>
    "field `" ++ field ++ "` repeated at line " ++ Text.decimal line
  | .invalidKeyValue key value line cause =>
    "line " ++ Text.decimal line ++ ": `" ++ key ++ "` has non-numeric value `" ++ value ++ "`: " ++
      cause.message
  | .invalidValue value line cause =>
    "line " ++ Text.decimal line ++ ": cannot parse `" ++ value ++ "` as integer: " ++ cause.message
  | .invalidRange range line =>
    "line " ++ Text.decimal line ++ ": invalid CPU range `" ++ range ++ "`"
  | .noValue => "stat file holds no value"
  | .file cause => cause.message

namespace Content

/-- The text of one line, which has to be UTF-8. -/
def lineText (l : Bytes) : Except ContentError String :=
  match Text.decode? l with
  | none => .error (.file .invalidUtf8)
  | some s => .ok s

/-- The value on the first line, without the blanks around it, and the bytes after that line, which
are the same whether the line is any good or not. -/
def firstValue (bs : Bytes) : Except ContentError String × Bytes :=
  let rest := (Text.cutLine bs).2
  if bs = [] then (.error .noValue, rest)
  else ((lineText (Text.cutLine bs).1).map Text.trim, rest)

/-- Reads a signed number of the first line. -/
def int64 (value : String) : Except ContentError Int :=
  (Text.readInt64 value).mapError (.invalidValue value 1)

/-- Reads an unsigned number of the first line. -/
def nat64 (value : String) : Except ContentError Nat :=
  (Text.readNat64 value).mapError (.invalidValue value 1)

@[simp] theorem firstValue_nil : firstValue [] = (.error .noValue, []) := rfl

@[simp] theorem firstValue_rest (bs : Bytes) : (firstValue bs).2 = (Text.cutLine bs).2 := by
  by_cases h : bs = [] <;> simp [firstValue, h]

end Content
end ControlGroups
