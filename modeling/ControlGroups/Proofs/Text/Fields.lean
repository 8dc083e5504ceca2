import Mathlib.Data.List.TakeWhile
import ControlGroups.Text.Fields

/-! Splitting a text into fields and joining fields are inverse, except that no field of a text
holds the separator and that there is always a field. -/
namespace ControlGroups.Text

theorem not_mem_of_mem_splitOn {α : Type} [BEq α] [LawfulBEq α] {a : α} {l piece : List α}
    (h : piece ∈ l.splitOn a) : a ∉ piece := by
  induction l generalizing piece with
  | nil =>
    rw [List.splitOn_nil, List.mem_singleton] at h
    simp [h]
  | cons x l ih =>
    rw [List.splitOn_cons_eq_if_modifyHead] at h
    split at h
    · rcases List.mem_cons.mp h with rfl | h
      · simp
      · exact ih h
    · rename_i hx
      cases hs : l.splitOn a with
      | nil => exact absurd hs (List.splitOn_ne_nil a l)
      | cons first rest =>
        rw [hs, List.modifyHead_cons] at h
        rcases List.mem_cons.mp h with rfl | h
        · have hf : a ∉ first := ih (by simp [hs])
          have hne : a ≠ x := fun he => hx (by simp [he])
          simp [hne, hf]
        · exact ih (by simp [hs, h])

theorem sep_not_mem_of_mem_fields {sep : Char} {s field : String} (h : field ∈ fields sep s) :
    sep ∉ field.toList := by
  obtain ⟨piece, hp, rfl⟩ := List.mem_map.mp h
  rw [String.toList_ofList]
  exact not_mem_of_mem_splitOn hp

/-- There is one field more than there are separators. -/
theorem length_fields (sep : Char) (s : String) : (fields sep s).length = s.toList.count sep + 1 := by
  rw [fields, List.length_map]
  induction s.toList with
  | nil => rfl
  | cons c cs ih =>
    rw [List.splitOn_cons_eq_if_modifyHead, List.count_cons]
    split
    · rw [List.length_cons, ih]
    · rw [List.length_modifyHead, ih, Nat.add_zero]

/-- Fields free of the separator are read back from the text that joins them. -/
theorem fields_joinFields {sep : Char} {parts : List String} (hne : parts ≠ [])
    (h : ∀ part ∈ parts, sep ∉ part.toList) : fields sep (joinFields sep parts) = parts := by
  have hl : ∀ l ∈ parts.map String.toList, sep ∉ l := by
    intro l hl
    obtain ⟨part, hp, rfl⟩ := List.mem_map.mp hl
    exact h part hp
  rw [fields, joinFields, String.toList_ofList, List.splitOn_intercalate sep hl (by simpa using hne),
    List.map_map]
  simp [Function.comp_def]

theorem joinFields_fields (sep : Char) (s : String) : joinFields sep (fields sep s) = s := by
  rw [joinFields, fields, List.map_map]
  simp [Function.comp_def, List.intercalate_splitOn]

/-- Joining adds nothing but separators. -/
theorem mem_joinFields {sep c : Char} {parts : List String}
    (h : c ∈ (joinFields sep parts).toList) : c = sep ∨ ∃ part ∈ parts, c ∈ part.toList := by
  induction parts with
  | nil => simp at h
  | cons first others ih =>
    cases others with
    | nil =>
      rw [joinFields_singleton] at h
      exact .inr ⟨first, by simp, h⟩
    | cons second others =>
      rw [joinFields_cons_cons, String.toList_append, List.mem_append] at h
      rcases h with h | h
      · exact .inr ⟨first, by simp, h⟩
      · simp only [String.toList_append, List.mem_append, String.toList_singleton,
          List.mem_singleton] at h
        rcases h with h | h
        · exact .inl h
        · rcases ih h with h | ⟨part, hp, hc⟩
          · exact .inl h
          · exact .inr ⟨part, List.mem_cons_of_mem first hp, hc⟩

theorem not_mem_joinFields {sep c : Char} {parts : List String} (hc : c ≠ sep)
    (h : ∀ part ∈ parts, c ∉ part.toList) : c ∉ (joinFields sep parts).toList := by
  intro hm
  rcases mem_joinFields hm with hs | ⟨part, hp, hcp⟩
  · exact hc hs
  · exact h part hp hcp

/-- Joined fields end as the last field ends, or with a separator. -/
theorem getLast?_joinFields {sep c : Char} {parts : List String}
    (h : (joinFields sep parts).toList.getLast? = some c) :
    c = sep ∨ ∃ last ∈ parts.getLast?, last.toList.getLast? = some c := by
  induction parts with
  | nil => simp at h
  | cons first others ih =>
    cases others with
    | nil =>
      rw [joinFields_singleton] at h
      exact .inr ⟨first, rfl, h⟩
    | cons second others =>
      rw [joinFields_cons_cons, String.toList_append, String.toList_append,
        String.toList_singleton, List.getLast?_append, List.getLast?_append] at h
      cases hr : (joinFields sep (second :: others)).toList.getLast? with
      | none =>
        rw [hr] at h
        exact .inl (Option.some.inj h).symm
      | some d =>
        rw [hr] at h
        cases h
        rw [List.getLast?_cons_cons]
        exact ih hr

theorem joinFields_concat {parts : List String} (h : parts ≠ []) (sep : Char) (last : String) :
    joinFields sep (parts ++ [last]) = joinFields sep parts ++ (String.singleton sep ++ last) := by
  induction parts with
  | nil => exact absurd rfl h
  | cons first others ih =>
    cases others with
    | nil => simp [joinFields_cons_cons]
    | cons second others =>
      have hr : joinFields sep (second :: others ++ [last]) =
          joinFields sep (second :: others) ++ (String.singleton sep ++ last) := ih (by simp)
      rw [List.cons_append, List.cons_append, joinFields_cons_cons, ← List.cons_append, hr,
        joinFields_cons_cons, String.append_assoc, String.append_assoc]

/-- A separator in front of a text adds an empty first field. -/
theorem fields_singleton_append (sep : Char) (s : String) :
    fields sep (String.singleton sep ++ s) = "" :: fields sep s := by
  simp [fields, List.splitOn_cons_eq_if_modifyHead]

/-- The fields of two texts with a separator between them are those of the one and those of the
other. -/
theorem fields_append_singleton_append (sep : Char) (s t : String) :
    fields sep (s ++ String.singleton sep ++ t) = fields sep s ++ fields sep t := by
  have hl : (s ++ String.singleton sep ++ t).toList = s.toList ++ sep :: t.toList := by simp
  rw [fields, hl, List.splitOn_append_cons_self, List.map_append]
  rfl

/-- A text is cut at the first separator. -/
theorem cutAt_append {sep : Char} {before : String} (h : sep ∉ before.toList) (after : String) :
    cutAt sep (before ++ String.singleton sep ++ after) = some (before, after) := by
  have hl : (before ++ String.singleton sep ++ after).toList =
      before.toList ++ sep :: after.toList := by simp
  have hb : ∀ c ∈ before.toList, (c != sep) = true := by
    intro c hc
    rw [bne_iff_ne]
    rintro rfl
    exact h hc
  have ht : (before.toList ++ sep :: after.toList).takeWhile (· != sep) = before.toList := by
    simp [List.takeWhile_append_of_pos hb]
  have hd : (before.toList ++ sep :: after.toList).dropWhile (· != sep) = sep :: after.toList := by
    simp [List.dropWhile_append_of_pos hb]
  simp only [cutAt, hl, ht, hd, String.ofList_toList]

theorem cutAt_of_not_mem {sep : Char} {s : String} (h : sep ∉ s.toList) : cutAt sep s = none := by
  have hd : s.toList.dropWhile (· != sep) = [] := by
    rw [List.dropWhile_eq_nil_iff]
    intro c hc
    rw [bne_iff_ne]
    rintro rfl
    exact h hc
  simp only [cutAt, hd]

/-- A text is free of the separator, or it has a first one. -/
theorem not_mem_or_eq_append (sep : Char) (s : String) : sep ∉ s.toList ∨
    ∃ before after, s = before ++ String.singleton sep ++ after ∧ sep ∉ before.toList := by
  by_cases h : sep ∈ s.toList
  · obtain ⟨before, after, hs, hb⟩ := List.eq_append_cons_of_mem h
    refine .inr ⟨String.ofList before, String.ofList after, ?_, ?_⟩
    · rw [← String.toList_inj, hs]
      simp
    · rwa [String.toList_ofList]
  · exact .inl h

/-- What is left of a text whose end is dropped once, if it is the given one. -/
def Stripped (tail s rest : String) : Prop :=
  s = rest ++ tail ∨ s = rest ∧ ∀ other, s ≠ other ++ tail

theorem dropTail_append (tail s : String) : dropTail tail (s ++ tail) = s := by
  have h : tail.toList.isSuffixOf (s ++ tail).toList = true := by
    rw [List.isSuffixOf_iff_suffix, String.toList_append]
    exact List.suffix_append _ _
  rw [dropTail, if_pos h, String.toList_append, List.length_append, Nat.add_sub_cancel,
    List.take_left, String.ofList_toList]

theorem dropTail_of_ne {tail s : String} (h : ∀ other, s ≠ other ++ tail) :
    dropTail tail s = s := by
  rw [dropTail, if_neg]
  intro hs
  obtain ⟨front, hf⟩ := List.isSuffixOf_iff_suffix.mp hs
  apply h (String.ofList front)
  rw [← String.toList_inj, String.toList_append, String.toList_ofList, hf]

theorem stripped_iff {tail s rest : String} : Stripped tail s rest ↔ dropTail tail s = rest := by
  constructor
  · rintro (rfl | ⟨rfl, h⟩)
    · exact dropTail_append tail rest
    · exact dropTail_of_ne h
  · rintro rfl
    by_cases h : ∃ other, s = other ++ tail
    · obtain ⟨other, rfl⟩ := h
      exact .inl (by rw [dropTail_append])
    · have hn : ∀ other, s ≠ other ++ tail := fun other ho => h ⟨other, ho⟩
      exact .inr ⟨(dropTail_of_ne hn).symm, hn⟩

end ControlGroups.Text
