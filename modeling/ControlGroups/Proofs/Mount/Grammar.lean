import ControlGroups.Proofs.Mount.Line
import ControlGroups.Proofs.Text.Natural

/-! Which lines hold a record of a mount table, and what the others are refused for. The reader
looks for the first separator and counts what is left, which is the same as counting the fields from
their end and allowing no separator before. -/
namespace ControlGroups.Mount

open Text (IsNat32 Natural)

variable {line : String} {fs tail optionalFields : List String} {m : Mount}

/-- A separator stands in front of the last three fields, and none from the seventh field on before
that. -/
structure Closed (fs : List String) : Prop where
  last : fs[fs.length - 4]? = some separator
  first : ∀ i, 6 ≤ i → i + 5 ≤ fs.length → fs[i]? ≠ some separator

/-- Fields of which a record is read. -/
structure Grammatical (fs : List String) : Prop where
  ten_le : 10 ≤ fs.length
  id : ∃ s, fs[0]? = some s ∧ IsNat32 s
  parent : ∃ s, fs[1]? = some s ∧ IsNat32 s
  closed : Closed fs

/-- Fields that hold a record: six from the front, three from the back, and the optional ones. -/
structure Holds (fs : List String) (m : Mount) : Prop where
  id : ∃ s, fs[0]? = some s ∧ Natural s m.id.toNat
  parent : ∃ s, fs[1]? = some s ∧ Natural s m.parent.toNat
  device : fs[2]? = some m.device
  root : fs[3]? = some m.root
  point : fs[4]? = some m.point
  options : fs[5]?.map (Text.fields ',') = some m.options
  optionalFields : (fs.drop 6).take (fs.length - 10) = m.optionalFields
  kind : fs[fs.length - 3]? = some m.kind
  source : fs[fs.length - 2]? = some m.source
  superOptions : fs[fs.length - 1]?.map (Text.fields ',') = some m.superOptions

/-- What a line with some fields is read as. Of several things that are wrong the first one in the
order of the rules is reported. -/
inductive Verdict (line : String) (fs : List String) : Except Refusal Mount → Prop
  | tooFew (h : fs.length < 10) : Verdict line fs (.error (.malformed line))
  | badId {s : String} {cause : Text.NumeralError} (h : 10 ≤ fs.length) (hs : fs[0]? = some s)
      (hn : ¬ IsNat32 s) (hc : Text.readNat32 s = .error cause) :
      Verdict line fs (.error (.badId .mount line cause))
  | badParent {id s : String} {cause : Text.NumeralError} (h : 10 ≤ fs.length)
      (hid : fs[0]? = some id) (hi : IsNat32 id) (hs : fs[1]? = some s) (hn : ¬ IsNat32 s)
      (hc : Text.readNat32 s = .error cause) :
      Verdict line fs (.error (.badId .parent line cause))
  | unclosed {id parent : String} (h : 10 ≤ fs.length) (hid : fs[0]? = some id) (hi : IsNat32 id)
      (hparent : fs[1]? = some parent) (hp : IsNat32 parent) (hc : ¬ Closed fs) :
      Verdict line fs (.error (.malformed line))
  | record {m : Mount} (h : Grammatical fs) (hm : Holds fs m) : Verdict line fs (.ok m)

/-- At least ten fields. The last four are told apart from the optional ones by counting. -/
structure Row where
  id : String
  parent : String
  device : String
  root : String
  point : String
  options : String
  optionalFields : List String
  mark : String
  kind : String
  source : String
  superOptions : String

namespace Row

def toFields (r : Row) : List String :=
  [r.id, r.parent, r.device, r.root, r.point, r.options] ++ r.optionalFields ++
    [r.mark, r.kind, r.source, r.superOptions]

/-- The field in front of the last three is the first separator. -/
def Marked (r : Row) : Prop := r.mark = separator ∧ separator ∉ r.optionalFields

instance (r : Row) : Decidable r.Marked := inferInstanceAs (Decidable (_ ∧ _))

/-- The record of some fields with the numbers that the first two are read as. -/
def record (r : Row) (id parent : UInt32) : Mount :=
  { id, parent, device := r.device, root := r.root, point := r.point,
    options := Text.fields ',' r.options, optionalFields := r.optionalFields, kind := r.kind,
    source := r.source, superOptions := Text.fields ',' r.superOptions }

variable {r : Row}

theorem exists_toFields (h : 10 ≤ fs.length) : ∃ r : Row, r.toFields = fs := by
  obtain ⟨front, back, rfl, hb⟩ : ∃ front back, fs = front ++ back ∧ back.length = 4 :=
    ⟨fs.take (fs.length - 4), fs.drop (fs.length - 4), (List.take_append_drop _ _).symm, by
      rw [List.length_drop]
      omega⟩
  have hf : 6 ≤ front.length := by
    rw [List.length_append] at h
    omega
  match front, back, hf, hb with
  | id :: parent :: device :: root :: point :: options :: optionalFields,
      [mark, kind, source, superOptions], _, _ =>
    exact ⟨⟨id, parent, device, root, point, options, optionalFields, mark, kind, source,
      superOptions⟩, rfl⟩

theorem length_toFields (r : Row) : r.toFields.length = r.optionalFields.length + 10 := by
  simp [toFields]

/-- No field before the first separator is one. -/
theorem separator_not_mem_of_splitTail {kind source superOptions : String}
    (h : splitTail tail = some (optionalFields, kind, source, superOptions)) :
    separator ∉ optionalFields := by
  have hw : optionalFields = tail.takeWhile (· != separator) := by
    unfold splitTail at h
    split at h
    · exact (congrArg Prod.fst (Option.some.inj h)).symm
    · cases h
  intro hm
  rw [hw] at hm
  exact absurd (List.mem_takeWhile_imp hm) (by simp)

/-- The first separator after the sixth field has three fields behind it exactly where it is the
mark. -/
theorem splitTail_eq (r : Row) :
    splitTail (r.optionalFields ++ [r.mark, r.kind, r.source, r.superOptions]) =
      if r.Marked then some (r.optionalFields, r.kind, r.source, r.superOptions) else none := by
  split
  · rename_i h
    rw [h.1]
    exact splitTail_append h.2 _ _ _
  · rename_i h
    cases hs : splitTail (r.optionalFields ++ [r.mark, r.kind, r.source, r.superOptions]) with
    | none => rfl
    | some parts =>
      obtain ⟨optionalFields, kind, source, superOptions⟩ := parts
      obtain ⟨ho, hm⟩ := List.append_inj' (splitTail_eq_some hs) rfl
      have hmark : r.mark = separator := (List.cons.inj hm).1
      exact absurd ⟨hmark, ho ▸ separator_not_mem_of_splitTail hs⟩ h

/-- Reading a line of at least ten fields. -/
theorem ofLine_eq (hf : Text.fields ' ' line = r.toFields) : ofLine line = (do
    let id ← (Text.readNat32 r.id).mapError (.badId .mount line)
    let parent ← (Text.readNat32 r.parent).mapError (.badId .parent line)
    if r.Marked then .ok (r.record id parent) else .error (.malformed line)) := by
  have hlen : ¬ (r.optionalFields ++ [r.mark, r.kind, r.source, r.superOptions]).length < 4 := by
    simp
  simp only [ofLine, hf, toFields, List.cons_append, List.nil_append, if_neg hlen, r.splitTail_eq]
  by_cases hm : r.Marked
  · simp only [if_pos hm]
    rfl
  · simp only [if_neg hm]

theorem ofLine_eq_ok_iff (hf : Text.fields ' ' line = r.toFields) : ofLine line = .ok m ↔
    r.Marked ∧ Natural r.id m.id.toNat ∧ Natural r.parent m.parent.toNat ∧
      m = r.record m.id m.parent := by
  rw [ofLine_eq hf, bind_eq_ok_iff]
  simp only [bind_eq_ok_iff, mapError_eq_ok_iff, Text.readNat32_eq_ok_iff]
  constructor
  · rintro ⟨id, hid, parent, hparent, h⟩
    split at h
    · rename_i hm
      cases h
      exact ⟨hm, hid, hparent, rfl⟩
    · cases h
  · rintro ⟨hm, hid, hparent, he⟩
    exact ⟨m.id, hid, m.parent, hparent, by rw [if_pos hm, ← he]⟩

/-- The last four fields, counted from the end. -/
theorem getElem?_last (r : Row) :
    r.toFields[r.toFields.length - 4]? = some r.mark ∧
    r.toFields[r.toFields.length - 3]? = some r.kind ∧
    r.toFields[r.toFields.length - 2]? = some r.source ∧
    r.toFields[r.toFields.length - 1]? = some r.superOptions := by
  simp [toFields]

theorem getElem?_optional {i : Nat} (h : i < r.optionalFields.length) :
    r.toFields[i + 6]? = r.optionalFields[i]? := by
  have hi : r.toFields[i + 6]? =
      (r.optionalFields ++ [r.mark, r.kind, r.source, r.superOptions])[i]? := rfl
  rw [hi, List.getElem?_append_left h]

theorem take_drop_toFields (r : Row) :
    (r.toFields.drop 6).take (r.toFields.length - 10) = r.optionalFields := by
  have hd : r.toFields.drop 6 =
      r.optionalFields ++ [r.mark, r.kind, r.source, r.superOptions] := rfl
  rw [hd, length_toFields, Nat.add_sub_cancel, List.take_left]

/-- The fields are closed by a separator exactly where it is the mark. -/
theorem closed_toFields_iff (r : Row) : Closed r.toFields ↔ r.Marked := by
  have hmark := r.getElem?_last.1
  constructor
  · rintro ⟨hlast, hfirst⟩
    refine ⟨Option.some.inj (hmark.symm.trans hlast), fun hm => ?_⟩
    obtain ⟨i, hi, hs⟩ := List.mem_iff_getElem.mp hm
    refine hfirst (i + 6) (by omega) (by rw [length_toFields]; omega) ?_
    rw [getElem?_optional hi, List.getElem?_eq_getElem hi, hs]
  · rintro ⟨hm, hs⟩
    refine ⟨hm ▸ hmark, fun i hl hu hi => ?_⟩
    rw [length_toFields] at hu
    obtain ⟨j, rfl⟩ : ∃ j, i = j + 6 := ⟨i - 6, by omega⟩
    rw [getElem?_optional (by omega)] at hi
    exact hs (List.mem_of_getElem? hi)

theorem holds_toFields_iff (r : Row) : Holds r.toFields m ↔
    Natural r.id m.id.toNat ∧ Natural r.parent m.parent.toNat ∧ m = r.record m.id m.parent := by
  obtain ⟨-, hkind, hsource, hsuper⟩ := r.getElem?_last
  constructor
  · rintro ⟨⟨id, hid, hi⟩, ⟨parent, hparent, hp⟩, hdevice, hroot, hpoint, hoptions, hoptional, hk, hs,
      ho⟩
    cases hid
    cases hparent
    refine ⟨hi, hp, ?_⟩
    rw [hkind] at hk
    rw [hsource] at hs
    rw [hsuper] at ho
    rw [r.take_drop_toFields] at hoptional
    obtain ⟨_, _, device, root, point, options, optionalFields, kind, source, superOptions⟩ := m
    cases hdevice
    cases hroot
    cases hpoint
    cases hoptions
    cases hoptional
    cases hk
    cases hs
    cases ho
    rfl
  · rintro ⟨hid, hparent, he⟩
    rw [he]
    exact ⟨⟨r.id, rfl, hid⟩, ⟨r.parent, rfl, hparent⟩, rfl, rfl, rfl, rfl, r.take_drop_toFields,
      hkind, hsource, by rw [hsuper]; rfl⟩

end Row

/-- Fewer fields are refused before anything else. -/
theorem ofLine_of_length_lt (h : (Text.fields ' ' line).length < 10) :
    ofLine line = .error (.malformed line) := by
  rw [ofLine]
  split
  · rename_i hf
    rw [hf] at h
    simp only [List.length_cons] at h
    exact if_pos (by omega)
  · rfl

/-- A line is a record exactly where its fields say so, and they say which one. -/
theorem ofLine_eq_ok_iff_holds : ofLine line = .ok m ↔
    Grammatical (Text.fields ' ' line) ∧ Holds (Text.fields ' ' line) m := by
  by_cases h : 10 ≤ (Text.fields ' ' line).length
  · obtain ⟨r, hr⟩ := Row.exists_toFields h
    rw [Row.ofLine_eq_ok_iff hr.symm, ← hr, Row.holds_toFields_iff]
    constructor
    · rintro ⟨hm, hi, hp, he⟩
      exact ⟨⟨hr ▸ h, ⟨_, rfl, hi.isNat32⟩, ⟨_, rfl, hp.isNat32⟩, r.closed_toFields_iff.mpr hm⟩,
        hi, hp, he⟩
    · rintro ⟨hg, hi, hp, he⟩
      exact ⟨r.closed_toFields_iff.mp hg.closed, hi, hp, he⟩
  · rw [ofLine_of_length_lt (by omega)]
    constructor
    · intro he
      cases he
    · rintro ⟨hg, -⟩
      exact absurd hg.ten_le h

theorem exists_holds (h : Grammatical fs) : ∃ m, Holds fs m := by
  obtain ⟨r, rfl⟩ := Row.exists_toFields h.ten_le
  obtain ⟨id, hid, hi⟩ := h.id
  obtain ⟨parent, hparent, hp⟩ := h.parent
  cases hid
  cases hparent
  obtain ⟨v, hv⟩ := Text.isNat32_iff.mp hi
  obtain ⟨w, hw⟩ := Text.isNat32_iff.mp hp
  exact ⟨r.record v w, r.holds_toFields_iff.mpr
    ⟨Text.readNat32_eq_ok_iff.mp hv, Text.readNat32_eq_ok_iff.mp hw, rfl⟩⟩

/-- A line is read as its fields say. -/
theorem ofLine_of_verdict {r : Except Refusal Mount} (h : Verdict line (Text.fields ' ' line) r) :
    ofLine line = r := by
  cases h with
  | tooFew h => exact ofLine_of_length_lt h
  | badId h hs hn hc =>
    obtain ⟨r, hr⟩ := Row.exists_toFields h
    rw [← hr] at hs
    cases hs
    rw [Row.ofLine_eq hr.symm, hc]
    rfl
  | badParent h hid hi hs hn hc =>
    obtain ⟨r, hr⟩ := Row.exists_toFields h
    rw [← hr] at hid hs
    cases hid
    cases hs
    obtain ⟨v, hv⟩ := Text.isNat32_iff.mp hi
    rw [Row.ofLine_eq hr.symm, hv, hc]
    rfl
  | unclosed h hid hi hparent hp hc =>
    obtain ⟨r, hr⟩ := Row.exists_toFields h
    rw [← hr] at hid hparent hc
    cases hid
    cases hparent
    obtain ⟨v, hv⟩ := Text.isNat32_iff.mp hi
    obtain ⟨w, hw⟩ := Text.isNat32_iff.mp hp
    rw [Row.ofLine_eq hr.symm, hv, hw, mapError_ok, mapError_ok, ok_bind, ok_bind,
      if_neg fun hm => hc (r.closed_toFields_iff.mpr hm)]
  | record h hm => exact ofLine_eq_ok_iff_holds.mpr ⟨h, hm⟩

/-- Some rule applies to every line. -/
theorem exists_verdict (line : String) (fs : List String) : ∃ r, Verdict line fs r := by
  by_cases h : 10 ≤ fs.length
  · have hid : fs[0]? = some fs[0] := List.getElem?_eq_getElem _
    have hparent : fs[1]? = some fs[1] := List.getElem?_eq_getElem _
    by_cases hi : IsNat32 fs[0]
    · by_cases hp : IsNat32 fs[1]
      · by_cases hc : Closed fs
        · have hg : Grammatical fs := ⟨h, ⟨_, hid, hi⟩, ⟨_, hparent, hp⟩, hc⟩
          obtain ⟨m, hm⟩ := exists_holds hg
          exact ⟨_, .record hg hm⟩
        · exact ⟨_, .unclosed h hid hi hparent hp hc⟩
      · obtain ⟨cause, hc⟩ := Text.exists_readNat32_eq_error hp
        exact ⟨_, .badParent h hid hi hparent hp hc⟩
    · obtain ⟨cause, hc⟩ := Text.exists_readNat32_eq_error hi
      exact ⟨_, .badId h hid hi hc⟩
  · exact ⟨_, .tooFew (by omega)⟩

/-- A line holds a record exactly where at least ten fields begin with two numbers and are closed by
a separator in front of the last three. Too few fields are reported before a bad number, that of the
record before that of its parent, and both before a missing separator. -/
theorem ofLine_verdict (line : String) :
    ((∃ m, ofLine line = .ok m) ↔ Grammatical (Text.fields ' ' line)) ∧
    (∀ m, ofLine line = .ok m ↔
      Grammatical (Text.fields ' ' line) ∧ Holds (Text.fields ' ' line) m) ∧
    ∀ r, ofLine line = r ↔ Verdict line (Text.fields ' ' line) r := by
  refine ⟨?_, fun m => ofLine_eq_ok_iff_holds, ?_⟩
  · constructor
    · rintro ⟨m, hm⟩
      exact (ofLine_eq_ok_iff_holds.mp hm).1
    · intro hg
      obtain ⟨m, hm⟩ := exists_holds hg
      exact ⟨m, ofLine_eq_ok_iff_holds.mpr ⟨hg, hm⟩⟩
  · intro r
    constructor
    · rintro rfl
      obtain ⟨r, hr⟩ := exists_verdict line (Text.fields ' ' line)
      rwa [ofLine_of_verdict hr]
    · exact ofLine_of_verdict

example : (ofLine "42 35 0:22 / /mnt rw - - - -").toOption.map (·.kind) = some "-" := by decide

end ControlGroups.Mount
