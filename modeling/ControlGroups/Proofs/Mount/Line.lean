import ControlGroups.Mount.Basic
import ControlGroups.Proofs.Failure
import ControlGroups.Proofs.Text.Fields
import ControlGroups.Proofs.Text.Lines
import ControlGroups.Proofs.Text.Numeral

/-! The line that a record of a mount table is written as. What stands in the strings of the record
decides whether it can be read back. -/
namespace ControlGroups.Mount

/-- Every string of a record, those in its lists included. -/
def strings (m : Mount) : List String :=
  [m.device, m.root, m.point, m.kind, m.source] ++ m.options ++ m.optionalFields ++ m.superOptions

/-- A record that can be told from its line. Any string may be empty, and the separator may stand
in every field but the optional ones. -/
structure Writable (m : Mount) : Prop where
  noSpace : ∀ s ∈ m.strings, ' ' ∉ s.toList
  noNewline : ∀ s ∈ m.strings, '\n' ∉ s.toList
  options_ne_nil : m.options ≠ []
  superOptions_ne_nil : m.superOptions ≠ []
  noComma : ∀ option ∈ m.options ++ m.superOptions, ',' ∉ option.toList
  noSeparator : separator ∉ m.optionalFields
  noReturn : ∀ last ∈ m.superOptions.getLast?, last.toList.getLast? ≠ some '\r'

variable {m : Mount}

/-- A character that no string of a record has is in no field, unless writing puts it there. -/
theorem not_mem_of_mem_toFields {c : Char} (hs : ∀ s ∈ m.strings, c ∉ s.toList)
    (hd : c.isDigit = false) (hc : c ≠ ',') (hm : c ≠ '-') {field : String}
    (h : field ∈ m.toFields) : c ∉ field.toList := by
  have hoptions : c ∉ (Text.joinFields ',' m.options).toList :=
    Text.not_mem_joinFields hc fun s hs' => hs s (by simp [strings, hs'])
  have hsuper : c ∉ (Text.joinFields ',' m.superOptions).toList :=
    Text.not_mem_joinFields hc fun s hs' => hs s (by simp [strings, hs'])
  have hsep : c ∉ separator.toList := by simpa [separator] using hm
  simp only [toFields, List.mem_append, List.mem_cons, List.not_mem_nil, or_false] at h
  rcases h with ((rfl | rfl | rfl | rfl | rfl | rfl) | h) | (rfl | rfl | rfl | rfl)
  · exact Text.not_mem_decimal hd _
  · exact Text.not_mem_decimal hd _
  · exact hs _ (by simp [strings])
  · exact hs _ (by simp [strings])
  · exact hs _ (by simp [strings])
  · exact hoptions
  · exact hs _ (by simp [strings, h])
  · exact hsep
  · exact hs _ (by simp [strings])
  · exact hs _ (by simp [strings])
  · exact hsuper

/-- The first separator is the one that was written, since no optional field is one. -/
theorem splitTail_append {optionalFields : List String} (h : separator ∉ optionalFields)
    (kind source superOptions : String) :
    splitTail (optionalFields ++ [separator, kind, source, superOptions]) =
      some (optionalFields, kind, source, superOptions) := by
  have hp : ∀ field ∈ optionalFields, (field != separator) = true := by
    intro field hm
    rw [bne_iff_ne]
    rintro rfl
    exact h hm
  have hd : (optionalFields ++ [separator, kind, source, superOptions]).dropWhile
      (· != separator) = [separator, kind, source, superOptions] := by
    rw [List.dropWhile_append_of_pos hp]
    simp
  have ht : (optionalFields ++ [separator, kind, source, superOptions]).takeWhile
      (· != separator) = optionalFields := by
    rw [List.takeWhile_append_of_pos hp]
    simp
  simp only [splitTail, hd, ht]

theorem fields_toLine (h : m.Writable) : Text.fields ' ' m.toLine = m.toFields := by
  refine Text.fields_joinFields (by simp [toFields]) ?_
  intro field hf
  exact not_mem_of_mem_toFields h.noSpace (by decide) (by decide) (by decide) hf

theorem fields_options (h : m.Writable) :
    Text.fields ',' (Text.joinFields ',' m.options) = m.options :=
  Text.fields_joinFields h.options_ne_nil fun option ho =>
    h.noComma option (List.mem_append_left _ ho)

theorem fields_superOptions (h : m.Writable) :
    Text.fields ',' (Text.joinFields ',' m.superOptions) = m.superOptions :=
  Text.fields_joinFields h.superOptions_ne_nil fun option ho =>
    h.noComma option (List.mem_append_right _ ho)

theorem ofLine_toLine (h : m.Writable) : ofLine m.toLine = .ok m := by
  have htail := splitTail_append h.noSeparator m.kind m.source (Text.joinFields ',' m.superOptions)
  have hlen : ¬ (m.optionalFields ++
      [separator, m.kind, m.source, Text.joinFields ',' m.superOptions]).length < 4 := by
    rw [List.length_append]
    exact Nat.not_lt.mpr (Nat.le_add_left _ _)
  simp only [ofLine, fields_toLine h, toFields, List.cons_append, List.nil_append, if_neg hlen,
    Text.readNat32_decimal, mapError_ok, ok_bind, htail, fields_options h, fields_superOptions h]

theorem getLast?_toFields (m : Mount) :
    m.toFields.getLast? = some (Text.joinFields ',' m.superOptions) := by
  rw [toFields, List.getLast?_append]
  rfl

theorem isLine_toLine (h : m.Writable) : Text.IsLine m.toLine := by
  refine Text.isLine_joinFields rfl (by simp [toFields]) ?_ ?_
  · intro field hf
    exact not_mem_of_mem_toFields h.noNewline (by decide) (by decide) (by decide) hf
  · rintro last hl hr
    rw [getLast?_toFields] at hl
    cases hl
    rcases Text.getLast?_joinFields hr with hs | ⟨option, ho, hr⟩
    · exact absurd hs (by decide)
    · exact h.noReturn option ho hr

end ControlGroups.Mount
