import ControlGroups.Attribute.Basic

/-! Lists of processors such as `0-3,6`, which are read only for how many they name. -/
namespace ControlGroups.Attribute

/-- How many processors an item of a list names: one, or those of a range with both its ends. -/
def countItem (item : String) : Except ContentError UInt64 :=
  match Text.cutAt '-' item with
  | none => (Content.int64 item).map fun _ => 1
  | some (first, last) => do
    let first ← Content.int64 first
    let last ← Content.int64 last
    if last < first then .error (.invalidRange item 1)
    else .ok (.ofNat (last - first + 1).toNat)

/-- How many processors some items name. Counts are words and sums of them are not checked: one that
does not fit a word is cut to its lower digits. -/
def countItems : List String → Except ContentError UInt64
  | [] => .ok 0
  | item :: items => do
    let n ← countItem item
    let rest ← countItems items
    .ok (n + rest)

/-- How many processors a list names. Items of no text are passed over. -/
def parseCpuList (value : String) : Except ContentError UInt64 :=
  countItems ((Text.fields ',' value).filter (· ≠ ""))

/-- The attribute that holds a list of processors. -/
def cpuList : Attribute UInt64 := ⟨parseCpuList⟩

end ControlGroups.Attribute
