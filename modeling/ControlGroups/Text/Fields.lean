/-! Text made of fields that one separator character divides. Joining the fields of a text gives
the text back, so no field is lost and none is invented. -/
namespace ControlGroups.Text

/-- The pieces between the separators, empty ones included, so there is always at least one. -/
def fields (sep : Char) (s : String) : List String :=
  (s.toList.splitOn sep).map String.ofList

/-- The pieces one after another with one separator between neighbours. -/
def joinFields (sep : Char) (parts : List String) : String :=
  String.ofList ([sep].intercalate (parts.map String.toList))

/-- The text before and the text after the first separator, if there is one. -/
def cutAt (sep : Char) (s : String) : Option (String × String) :=
  let before := s.toList.takeWhile (· != sep)
  match s.toList.dropWhile (· != sep) with
  | [] => none
  | _ :: after => some (String.ofList before, String.ofList after)

/-- The text without `tail` at its end, once, or the text itself where it does not end so. -/
def dropTail (tail s : String) : String :=
  if tail.toList.isSuffixOf s.toList then
    String.ofList (s.toList.take (s.toList.length - tail.toList.length))
  else s

@[simp] theorem joinFields_nil (sep : Char) : joinFields sep [] = "" := rfl

@[simp] theorem joinFields_singleton (sep : Char) (s : String) : joinFields sep [s] = s := by
  simp [joinFields, List.intercalate]

/-- From two fields on, the first one stands before the separator and the rest follow it. -/
theorem joinFields_cons_cons (sep : Char) (s t : String) (parts : List String) :
    joinFields sep (s :: t :: parts) =
      s ++ (String.singleton sep ++ joinFields sep (t :: parts)) := by
  simp [joinFields, List.intercalate, String.ofList_append, String.ofList_cons]

end ControlGroups.Text
