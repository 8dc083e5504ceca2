import ControlGroups.Proofs.Membership.Line
import ControlGroups.Proofs.Mount.Grammar
import ControlGroups.Proofs.Text.Numbered

/-! The lines that are accepted, as opposed to the ones that were written. A record holds the whole
line that it was read from, but for the zeros and the signs in front of its numbers. -/
namespace ControlGroups

namespace Mount

/-- The numbers in the first two fields. -/
def numbers (m : Mount) : List Nat := [m.id.toNat, m.parent.toNat]

/-- The fields behind the numbers. -/
def rest (m : Mount) : List String :=
  [m.device, m.root, m.point, Text.joinFields ',' m.options] ++ m.optionalFields ++
    [separator, m.kind, m.source, Text.joinFields ',' m.superOptions]

/-- The fields of a record, with some numerals for its numbers. -/
def row (m : Mount) (id parent : String) : Row where
  id := id
  parent := parent
  device := m.device
  root := m.root
  point := m.point
  options := Text.joinFields ',' m.options
  optionalFields := m.optionalFields
  mark := separator
  kind := m.kind
  source := m.source
  superOptions := Text.joinFields ',' m.superOptions

/-- A record with lists that a field or a part of a line is read as. -/
structure Accepted (m : Mount) : Prop where
  noSeparator : separator ∉ m.optionalFields
  options : Text.fields ',' (Text.joinFields ',' m.options) = m.options
  superOptions : Text.fields ',' (Text.joinFields ',' m.superOptions) = m.superOptions

variable {m : Mount} {line : String}

theorem Row.accepted_record {r : Row} (h : r.Marked) (id parent : UInt32) :
    (r.record id parent).Accepted where
  noSeparator := h.2
  options := by
    rw [record, Text.joinFields_fields]
  superOptions := by
    rw [record, Text.joinFields_fields]

theorem Row.toFields_eq {r : Row} (h : r.Marked) (id parent : UInt32) :
    r.toFields = [r.id, r.parent] ++ (r.record id parent).rest := by
  simp only [toFields, rest, record, Text.joinFields_fields, h.1]
  rfl

theorem Accepted.record_row (h : m.Accepted) (id parent : String) :
    (m.row id parent).record m.id m.parent = m := by
  simp only [row, Row.record, h.options, h.superOptions]

/-- A line is read as a record exactly where it has the numbers and the fields of it. -/
theorem ofLine_eq_ok_iff_isNumbered : ofLine line = .ok m ↔
    m.Accepted ∧ Text.IsNumbered ' ' m.numbers m.rest line := by
  constructor
  · intro h
    obtain ⟨r, hr⟩ := Row.exists_toFields (ofLine_eq_ok_iff_holds.mp h).1.ten_le
    obtain ⟨hm, hid, hparent, he⟩ := (Row.ofLine_eq_ok_iff hr.symm).mp h
    rw [he]
    refine ⟨Row.accepted_record hm _ _, [r.id, r.parent], ?_, ?_⟩
    · exact .cons hid (.cons hparent .nil)
    · rw [← hr]
      exact Row.toFields_eq hm _ _
  · rintro ⟨ha, numerals, hn, hf⟩
    obtain ⟨id, _, hid, htail, rfl⟩ := List.forall₂_cons_right_iff.mp hn
    obtain ⟨parent, _, hparent, hnil, rfl⟩ := List.forall₂_cons_right_iff.mp htail
    obtain rfl := List.forall₂_nil_right_iff.mp hnil
    have hr : Text.fields ' ' line = (m.row id parent).toFields := hf
    exact (Row.ofLine_eq_ok_iff hr).mpr
      ⟨⟨rfl, ha.noSeparator⟩, hid, hparent, (ha.record_row id parent).symm⟩

theorem preserved (h : ofLine line = .ok m) : Text.Preserved ' ' 2 ofLine toLine line m := by
  obtain ⟨ha, hn⟩ := ofLine_eq_ok_iff_isNumbered.mp h
  exact hn.preserved (by decide) (by simp [numbers]) ha rfl fun _ => ofLine_eq_ok_iff_isNumbered

end Mount

namespace Membership

/-- The fields behind the number. -/
def rest (m : Membership) : List String := [Text.joinFields ',' m.controllers, m.group]

/-- A membership with a list of controllers that a field is read as. -/
def Accepted (m : Membership) : Prop :=
  Text.fields ',' (Text.joinFields ',' m.controllers) = m.controllers

variable {m : Membership} {line : String}

theorem ofLine_eq_ok_iff : ofLine line = .ok m ↔ ∃ id controllers,
    Text.fields ':' line = [id, controllers, m.group] ∧ Text.Natural id m.id.toNat ∧
      Text.fields ',' controllers = m.controllers := by
  rw [ofLine]
  split
  · rename_i id controllers group hf
    rw [bind_eq_ok_iff]
    simp only [mapError_eq_ok_iff, Text.readNat32_eq_ok_iff]
    constructor
    · rintro ⟨v, hid, h⟩
      cases h
      exact ⟨id, controllers, hf, hid, rfl⟩
    · rintro ⟨_, _, hf', hid, hc⟩
      cases hf.symm.trans hf'
      exact ⟨m.id, hid, by rw [hc]⟩
  · rename_i hf
    constructor
    · intro h
      cases h
    · rintro ⟨_, _, hf', -⟩
      exact absurd hf' (hf _ _ _)

theorem ofLine_eq_ok_iff_isNumbered : ofLine line = .ok m ↔
    m.Accepted ∧ Text.IsNumbered ':' [m.id.toNat] m.rest line := by
  rw [ofLine_eq_ok_iff]
  constructor
  · rintro ⟨id, controllers, hf, hid, hc⟩
    rw [Accepted, rest, ← hc, Text.joinFields_fields]
    exact ⟨rfl, [id], .cons hid .nil, hf⟩
  · rintro ⟨ha, numerals, hn, hf⟩
    obtain ⟨id, _, hid, hnil, rfl⟩ := List.forall₂_cons_right_iff.mp hn
    obtain rfl := List.forall₂_nil_right_iff.mp hnil
    exact ⟨id, _, hf, hid, ha⟩

theorem preserved (h : ofLine line = .ok m) : Text.Preserved ':' 1 ofLine toLine line m := by
  obtain ⟨ha, hn⟩ := ofLine_eq_ok_iff_isNumbered.mp h
  exact hn.preserved (by decide) (by simp) ha rfl fun _ => ofLine_eq_ok_iff_isNumbered

/-- Two separators and a number in front of the first one are all that a line needs. -/
theorem exists_ofLine_eq_ok_iff : (∃ m, ofLine line = .ok m) ↔
    line.toList.count ':' = 2 ∧ ∃ id, (Text.fields ':' line).head? = some id ∧ Text.IsNat32 id := by
  have hl := Text.length_fields ':' line
  constructor
  · rintro ⟨m, h⟩
    obtain ⟨id, controllers, hf, hid, -⟩ := ofLine_eq_ok_iff.mp h
    rw [hf] at hl
    exact ⟨(Nat.succ.inj hl).symm, id, by rw [hf]; rfl, hid.isNat32⟩
  · rintro ⟨hcount, id, hhead, hid⟩
    rw [hcount] at hl
    obtain ⟨first, controllers, group, hf⟩ := List.length_eq_three.mp hl
    rw [hf] at hhead
    cases hhead
    obtain ⟨v, hv⟩ := Text.isNat32_iff.mp hid
    exact ⟨⟨v, Text.fields ',' controllers, group⟩, ofLine_eq_ok_iff.mpr
      ⟨id, controllers, hf, Text.readNat32_eq_ok_iff.mp hv, rfl⟩⟩

end Membership

/-- Writing an accepted line again changes no more than the spelling of its numbers, and no other
lines are read as its record. Those of a membership file are the ones with two colons and a number
in front of the first. -/
theorem Scan.accepted_lines_preserved (line : String) :
    (∀ m, Mount.ofLine line = .ok m → Text.Preserved ' ' 2 Mount.ofLine Mount.toLine line m) ∧
    (∀ m, Membership.ofLine line = .ok m →
      Text.Preserved ':' 1 Membership.ofLine Membership.toLine line m) ∧
    ((∃ m, Membership.ofLine line = .ok m) ↔ line.toList.count ':' = 2 ∧
      ∃ id, (Text.fields ':' line).head? = some id ∧ Text.IsNat32 id) :=
  ⟨fun _ => Mount.preserved, fun _ => Membership.preserved, Membership.exists_ofLine_eq_ok_iff⟩

theorem Scan.accepted_lines_preserved_zeros :
    Text.Preserved ' ' 2 Mount.ofLine Mount.toLine "007 +42   / rw,,x shared:1  - - - ,"
        ⟨7, 42, "", "", "/", ["rw", "", "x"], ["shared:1", ""], "-", "-", ["", ""]⟩ ∧
      Text.Preserved ':' 1 Membership.ofLine Membership.toLine "+00::/a b"
        ⟨0, [""], "/a b"⟩ ∧
      ¬ ∃ m, Membership.ofLine "0::/a:b" = .ok m := by
  refine ⟨(accepted_lines_preserved _).1 _ (eq_ok_of_toOption (by decide)),
    (accepted_lines_preserved _).2.1 _ (eq_ok_of_toOption (by decide)), ?_⟩
  rw [(accepted_lines_preserved _).2.2]
  rintro ⟨hcount, -⟩
  exact absurd hcount (by decide)

end ControlGroups
