import ControlGroups.Attribute.Bandwidth

/-! Memory limits and memory use in bytes. -/
namespace ControlGroups.Attribute

/-- The attribute of the unified hierarchy that holds a limit. -/
def memoryMax : Attribute (Option Int) := ⟨parseLimit⟩

/-- The attribute that holds the memory in use. -/
def memoryUsage : Attribute Int := ⟨Content.int64⟩

/-- What a hierarchy of controllers reports where no limit is set: the largest signed word rounded
down to whole pages of 4 or 64 KiB, and the largest signed and unsigned words themselves. -/
def unlimitedBytes : List Nat :=
  [9223372036854771712, 9223372036854710272, 9223372036854775807, 18446744073709551615]

/-- Whether a number of bytes is a limit. -/
def isLimit (bytes : Nat) : Bool :=
  bytes != 0 && !unlimitedBytes.contains bytes && bytes ≤ Text.maxInt64

/-- Reads a limit of a hierarchy of controllers. A number with a minus sign is read for its errors
and is no limit. -/
def parseLimitInBytes (value : String) : Except ContentError (Option Int) :=
  if value.toList.head? = some '-' then (Content.int64 value).map fun _ => none
  else (Content.nat64 value).map fun bytes => if isLimit bytes then some (bytes : Int) else none

/-- The attribute of a hierarchy of controllers that holds a limit. -/
def limitInBytes : Attribute (Option Int) := ⟨parseLimitInBytes⟩

end ControlGroups.Attribute
