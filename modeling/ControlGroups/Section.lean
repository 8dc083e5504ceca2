import ControlGroups.Attribute.Basic
import ControlGroups.KeyTable

/-! Attributes and tables that stand one after another in the same bytes. Each is read from the
first byte that those before it have left, also where one of them could not be read. -/
namespace ControlGroups

/-- An attribute or a table among others, and what its value is handed on as. -/
inductive Section (β : Type) : Type 1 where
  | value {α : Type} (a : Attribute α) (give : α → β)
  | table {α : Type} (t : KeyTable α) (give : α → β)

namespace Section

variable {β : Type}

/-- Reads a section and gives back the bytes that follow it. -/
def read : Section β → Bytes → Except ContentError β × Bytes
  | .value a give, bs => ((a.read bs).1.map give, (a.read bs).2)
  | .table t give, bs => ((t.read bs).1.map give, (t.read bs).2)

/-- Reads some sections in their order and gives back the bytes that follow the last one. -/
def readAll : List (Section β) → Bytes → List (Except ContentError β) × Bytes
  | [], bs => ([], bs)
  | s :: sections, bs =>
    let first := s.read bs
    let others := readAll sections first.2
    (first.1 :: others.1, others.2)

@[simp] theorem readAll_nil (bs : Bytes) : readAll ([] : List (Section β)) bs = ([], bs) := rfl

@[simp] theorem readAll_cons (s : Section β) (sections : List (Section β)) (bs : Bytes) :
    readAll (s :: sections) bs =
      ((s.read bs).1 :: (readAll sections (s.read bs).2).1,
        (readAll sections (s.read bs).2).2) := rfl

end Section
end ControlGroups
