import ControlGroups.Membership.Basic
import ControlGroups.Proofs.Failure
import ControlGroups.Proofs.Text.Fields
import ControlGroups.Proofs.Text.Lines
import ControlGroups.Proofs.Text.Numeral

/-! The line that a membership is written as, and what a membership must not hold to be read back
from it. -/
namespace ControlGroups.Membership

/-- A membership that can be told from its line. -/
structure Writable (m : Membership) : Prop where
  controllers_ne_nil : m.controllers ≠ []
  controllers_plain : ∀ name ∈ m.controllers,
    ',' ∉ name.toList ∧ ':' ∉ name.toList ∧ '\n' ∉ name.toList
  group_plain : ':' ∉ m.group.toList ∧ '\n' ∉ m.group.toList
  noReturn : m.group.toList.getLast? ≠ some '\r'

variable {m : Membership}

/-- A character that neither the names nor the group have is in no field, unless writing puts it
there. -/
theorem not_mem_field {c : Char} (hn : ∀ name ∈ m.controllers, c ∉ name.toList)
    (hg : c ∉ m.group.toList) (hd : c.isDigit = false) (hc : c ≠ ',') {field : String}
    (h : field ∈ [Text.decimal m.id.toNat, Text.joinFields ',' m.controllers, m.group]) :
    c ∉ field.toList := by
  simp only [List.mem_cons, List.not_mem_nil, or_false] at h
  rcases h with rfl | rfl | rfl
  · exact Text.not_mem_decimal hd _
  · exact Text.not_mem_joinFields hc hn
  · exact hg

theorem ofLine_toLine (h : m.Writable) : ofLine m.toLine = .ok m := by
  have hline : Text.fields ':' m.toLine =
      [Text.decimal m.id.toNat, Text.joinFields ',' m.controllers, m.group] :=
    Text.fields_joinFields (by simp) fun field hf =>
      not_mem_field (fun name hm => (h.controllers_plain name hm).2.1) h.group_plain.1
        (by decide) (by decide) hf
  have hcontrollers : Text.fields ',' (Text.joinFields ',' m.controllers) = m.controllers :=
    Text.fields_joinFields h.controllers_ne_nil fun name hm => (h.controllers_plain name hm).1
  simp only [ofLine, hline, Text.readNat32_decimal, mapError_ok, ok_bind, hcontrollers]

theorem isLine_toLine (h : m.Writable) : Text.IsLine m.toLine := by
  refine Text.isLine_joinFields rfl (by simp) ?_ ?_
  · intro field hf
    exact not_mem_field (fun name hm => (h.controllers_plain name hm).2.2) h.group_plain.2
      (by decide) (by decide) hf
  · rintro last hl hr
    cases hl
    exact h.noReturn hr

end ControlGroups.Membership
