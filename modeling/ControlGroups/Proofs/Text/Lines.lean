import ControlGroups.Proofs.Text.Fields
import ControlGroups.Proofs.Text.Utf8
import ControlGroups.Text.Lines
import Mathlib.Data.List.DropRight

/-! Lines of bytes and lines of text. A file that is cut into lines first and decoded line by line
has the lines of its decoded text, since no malformed sequence reaches over a newline. -/
namespace ControlGroups.Text

/-- A text without the line ends that close it. -/
def dropLineEnds (s : String) : String := String.ofList (s.toList.rdropWhile isLineEnd)

/-- A text cut after every newline. The last piece holds what follows the last newline. -/
def pieces (s : String) : List String :=
  let parts := fields '\n' s
  parts.dropLast.map (· ++ "\n") ++ parts.getLast?.toList

/-- The lines of a text: its pieces, without one of no text at the end, less the line ends at the
end of each. -/
def linesOf (s : String) : List String :=
  let cut := pieces s
  (if cut.getLast? = some "" then cut.dropLast else cut).map dropLineEnds

/-- A text that can be a line of a file: there is some of it, and no line end closes it. -/
structure IsLine (s : String) : Prop where
  ne_empty : s ≠ ""
  noNewline : '\n' ∉ s.toList
  noReturn : s.toList.getLast? ≠ some '\r'

/-- Some lines in a row, each with its newline. -/
def writeLines : List String → String
  | [] => ""
  | line :: lines => line ++ "\n" ++ writeLines lines

/-- The bytes of some lines, of which the last one may lack its newline. -/
def Written (lines : List String) (bs : Bytes) : Prop :=
  bs = encode (writeLines lines) ∨ bs ++ [newline] = encode (writeLines lines)

/-- The bytes that are left of others from the start of a line on, or behind the last one. -/
def AtLineStart (bs rest : Bytes) : Prop :=
  ∃ before, bs = before ++ rest ∧
    (before = [] ∨ before.getLast? = some newline ∨ rest = [])

section Bytes
variable {l : Bytes}

/-- Bytes end with a piece that has no newline, and every line before it adds one. -/
theorem line_induction {P : Bytes → Prop} (last : ∀ l, newline ∉ l → P l)
    (line : ∀ l more, newline ∉ l → P more → P (l ++ newline :: more)) (bs : Bytes) : P bs := by
  by_cases h : newline ∈ bs
  · obtain ⟨l, more, hb, hl⟩ := List.eq_append_cons_of_mem h
    have hlt : more.length < bs.length := by
      rw [hb, List.length_append, List.length_cons]
      omega
    rw [hb]
    exact line l more hl (line_induction last line more)
  · exact last bs h
termination_by bs.length

theorem cutLine_of_not_mem (h : newline ∉ l) : cutLine l = (l, []) := by
  induction l with
  | nil => rfl
  | cons b l ih =>
    obtain ⟨hb, hl⟩ := not_or.mp (mt List.mem_cons.mpr h)
    rw [cutLine, if_neg (Ne.symm hb), ih hl]

theorem cutLine_append_newline (h : newline ∉ l) (more : Bytes) :
    cutLine (l ++ newline :: more) = (l ++ [newline], more) := by
  induction l with
  | nil => rfl
  | cons b l ih =>
    obtain ⟨hb, hl⟩ := not_or.mp (mt List.mem_cons.mpr h)
    rw [List.cons_append, cutLine, if_neg (Ne.symm hb), ih hl]
    rfl

theorem lines_of_not_mem (h : newline ∉ l) (hne : l ≠ []) : lines l = [l] := by
  rw [lines_eq_cutLine hne, cutLine_of_not_mem h]
  rfl

theorem lines_append_newline (h : newline ∉ l) (more : Bytes) :
    lines (l ++ newline :: more) = (l ++ [newline]) :: lines more := by
  rw [lines_eq_cutLine (by simp), cutLine_append_newline h]

/-- Only the last line may lack its newline. -/
theorem getLast?_of_lines_eq {bs : Bytes} {before after : List Bytes}
    (h : lines bs = before ++ l :: after) (ha : after ≠ []) : l.getLast? = some newline := by
  induction bs using line_induction generalizing before with
  | last bs hb =>
    by_cases hn : bs = []
    · rw [hn] at h
      cases before <;> cases h
    · rw [lines_of_not_mem hb hn] at h
      cases before with
      | nil => exact absurd (List.cons.inj h).2.symm ha
      | cons first before => cases before <;> cases (List.cons.inj h).2
  | line first more hf ih =>
    rw [lines_append_newline hf] at h
    cases before with
    | nil =>
      rw [← (List.cons.inj h).1]
      simp
    | cons first before => exact ih (List.cons.inj h).2

/-- The lines that are left after some of a file are the lines of the bytes that are left. -/
theorem lines_flatten_of_lines_eq {bs : Bytes} {taken left : List Bytes}
    (h : lines bs = taken ++ left) : lines left.flatten = left := by
  induction taken generalizing bs with
  | nil => rw [← List.nil_append left, ← h, lines_flatten]
  | cons first taken ih =>
    have hne : bs ≠ [] := by
      rintro rfl
      cases h
    rw [lines_eq_cutLine hne] at h
    exact ih (List.cons.inj h).2

/-- Whoever takes whole lines stops at the start of a line. -/
theorem atLineStart_of_lines_eq {bs rest : Bytes} {taken : List Bytes}
    (h : lines bs = taken ++ lines rest) : AtLineStart bs rest := by
  refine ⟨taken.flatten, ?_, ?_⟩
  · rw [← lines_flatten bs, h, List.flatten_append, lines_flatten]
  · rcases List.eq_nil_or_concat taken with rfl | ⟨others, last, rfl⟩
    · exact .inl rfl
    · by_cases hr : rest = []
      · exact .inr (.inr hr)
      · rw [List.concat_eq_append, List.append_assoc, List.singleton_append] at h
        have hl := getLast?_of_lines_eq h (lines_ne_nil hr)
        rw [List.concat_eq_append, List.flatten_append, List.flatten_singleton,
          List.getLast?_append, hl]
        exact .inr (.inl rfl)

end Bytes

section Decoding
variable {l : Bytes}

theorem decodeLossy_append {bs more : Bytes} (h : ∀ b ∈ more.head?, StartsCharacter b) :
    decodeLossy (bs ++ more) = decodeLossy bs ++ decodeLossy more := by
  rw [decodeLossy, decode_append h, List.map_append, String.ofList_append]
  rfl

theorem decodeLossy_encode (s : String) : decodeLossy (encode s) = s := by
  simp [decodeLossy, decode_encode, Function.comp_def]

theorem decodeLossy_eq_empty_iff {bs : Bytes} : decodeLossy bs = "" ↔ bs = [] := by
  rw [decodeLossy, String.ofList_eq_empty_iff, List.map_eq_nil_iff, decode, decodeFrom_eq_nil_iff]
  simp

theorem decodeLossy_append_newline (bs more : Bytes) :
    decodeLossy (bs ++ newline :: more) = decodeLossy bs ++ "\n" ++ decodeLossy more := by
  have hs : ∀ b ∈ (newline :: more).head?, StartsCharacter b := by
    rintro b ⟨⟩
    exact .inl (by decide)
  have hn : newline :: more = encode "\n" ++ more := rfl
  have hd : decodeLossy (encode "\n" ++ more) = "\n" ++ decodeLossy more := by
    rw [decodeLossy, decode_encode_append, List.map_append, String.ofList_append]
    rfl
  rw [decodeLossy_append hs, hn, hd, String.append_assoc]

/-- No newline comes about by decoding. -/
theorem newline_not_mem_decodeLossy (h : newline ∉ l) : '\n' ∉ (decodeLossy l).toList := by
  rw [decodeLossy, String.toList_ofList]
  intro hm
  obtain ⟨d, hd, hc⟩ := List.mem_map.mp hm
  cases d with
  | none => cases hc
  | some c =>
    cases hc
    exact h ((some_mem_decode_iff (by decide)).mp hd)

theorem newline_not_mem_encode {s : String} (h : '\n' ∉ s.toList) : newline ∉ encode s := by
  intro hm
  have hd : some '\n' ∈ decode (encode s) := (some_mem_decode_iff (by decide)).mpr hm
  rw [decode_encode] at hd
  obtain ⟨c, hc, he⟩ := List.mem_map.mp hd
  cases he
  exact h hc

theorem lineText_eq_dropLineEnds (l : Bytes) : lineText l = dropLineEnds (decodeLossy l) := rfl

theorem dropLineEnds_append_newline (s : String) : dropLineEnds (s ++ "\n") = dropLineEnds s := by
  rw [dropLineEnds, String.toList_append]
  exact congrArg String.ofList (List.rdropWhile_concat_pos _ _ _ rfl)

theorem lineText_append_newline (l : Bytes) : lineText (l ++ [newline]) = lineText l := by
  have h : decodeLossy (l ++ [newline]) = decodeLossy l ++ "\n" := by
    rw [decodeLossy_append_newline]
    exact String.append_empty
  rw [lineText_eq_dropLineEnds, h, dropLineEnds_append_newline]
  rfl

theorem pieces_of_not_mem {s : String} (h : '\n' ∉ s.toList) : pieces s = [s] := by
  have hf : fields '\n' s = [s] := by
    rw [fields, List.splitOn_eq_singleton h]
    simp
  simp [pieces, hf]

theorem pieces_append_newline {s : String} (h : '\n' ∉ s.toList) (t : String) :
    pieces (s ++ "\n" ++ t) = (s ++ "\n") :: pieces t := by
  have hf : fields '\n' (s ++ "\n" ++ t) = s :: fields '\n' t := by
    have hl : (s ++ "\n" ++ t).toList = s.toList ++ '\n' :: t.toList := by simp
    rw [fields, hl, List.splitOn_append_cons_self_of_not_mem h]
    simp [fields]
  have hne : fields '\n' t ≠ [] := by simp [fields]
  obtain ⟨first, others, ht⟩ := List.exists_cons_of_ne_nil hne
  simp [pieces, hf, ht]

theorem linesOf_of_not_mem {s : String} (h : '\n' ∉ s.toList) :
    linesOf s = if s = "" then [] else [dropLineEnds s] := by
  rw [linesOf, pieces_of_not_mem h]
  by_cases hs : s = "" <;> simp [hs]

theorem linesOf_append_newline {s : String} (h : '\n' ∉ s.toList) (t : String) :
    linesOf (s ++ "\n" ++ t) = dropLineEnds s :: linesOf t := by
  have hne : pieces t ≠ [] := by simp [pieces, fields]
  obtain ⟨first, others, ht⟩ := List.exists_cons_of_ne_nil hne
  rw [linesOf, pieces_append_newline h, linesOf, ht, ← dropLineEnds_append_newline s]
  by_cases hl : (first :: others).getLast? = some ""
  · simp [hl]
  · simp [hl]

/-- A file decoded line by line has the lines of its text decoded as a whole. -/
theorem map_lineText_lines (bs : Bytes) : (lines bs).map lineText = linesOf (decodeLossy bs) := by
  induction bs using line_induction with
  | last l hl =>
    rw [linesOf_of_not_mem (newline_not_mem_decodeLossy hl)]
    by_cases hn : l = []
    · rw [hn]
      rfl
    · rw [lines_of_not_mem hl hn, if_neg (mt decodeLossy_eq_empty_iff.mp hn)]
      rfl
  | line l more hl ih =>
    rw [lines_append_newline hl, List.map_cons, ih, lineText_append_newline,
      decodeLossy_append_newline, linesOf_append_newline (newline_not_mem_decodeLossy hl)]
    rfl

end Decoding

section Writing
variable {s t : String} {lines more : List String} {bs : Bytes}

theorem IsLine.dropLineEnds_eq (h : IsLine s) : dropLineEnds s = s := by
  have hr : s.toList.rdropWhile isLineEnd = s.toList := by
    rw [List.rdropWhile_eq_self_iff]
    intro hne hl
    simp only [isLineEnd, Bool.or_eq_true, beq_iff_eq] at hl
    rcases hl with hl | hl
    · exact h.noNewline (hl ▸ List.getLast_mem hne)
    · exact h.noReturn (List.getLast?_eq_some_getLast hne ▸ congrArg some hl)
  rw [dropLineEnds, hr, String.ofList_toList]

/-- Several fields make a line where none of them breaks it and the last one does not close it. -/
theorem isLine_joinFields {sep : Char} {parts : List String} (hs : isLineEnd sep = false)
    (hp : 1 < parts.length) (hn : ∀ part ∈ parts, '\n' ∉ part.toList)
    (hr : ∀ last ∈ parts.getLast?, last.toList.getLast? ≠ some '\r') :
    IsLine (joinFields sep parts) where
  ne_empty := by
    match parts, hp with
    | first :: second :: others, _ => simp [joinFields_cons_cons]
  noNewline := by
    refine not_mem_joinFields ?_ hn
    rintro rfl
    cases hs
  noReturn := by
    intro hl
    rcases getLast?_joinFields hl with rfl | ⟨last, hm, hl⟩
    · cases hs
    · exact hr last hm hl

theorem writeLines_append (lines more : List String) :
    writeLines (lines ++ more) = writeLines lines ++ writeLines more := by
  induction lines with
  | nil => exact String.empty_append.symm
  | cons line lines ih => simp only [List.cons_append, writeLines, ih, String.append_assoc]

/-- Texts without a newline are cut apart again where they were written one after another. -/
theorem lines_encode_writeLines (h : ∀ line ∈ lines, '\n' ∉ line.toList) :
    Text.lines (encode (writeLines lines)) = lines.map fun line => encode (line ++ "\n") := by
  induction lines with
  | nil => rfl
  | cons line lines ih =>
    obtain ⟨hl, ho⟩ := List.forall_mem_cons.mp h
    have hn : encode "\n" = [newline] := rfl
    have hw : encode (writeLines (line :: lines)) =
        encode line ++ newline :: encode (writeLines lines) := by
      simp [writeLines, hn]
    rw [hw, lines_append_newline (newline_not_mem_encode hl), ih ho, List.map_cons, encode_append,
      hn]

theorem linesOf_writeLines_append (h : ∀ line ∈ lines, IsLine line) (t : String) :
    linesOf (writeLines lines ++ t) = lines ++ linesOf t := by
  induction lines with
  | nil => rw [writeLines, String.empty_append, List.nil_append]
  | cons line lines ih =>
    obtain ⟨hf, ho⟩ := List.forall_mem_cons.mp h
    rw [writeLines, String.append_assoc, linesOf_append_newline hf.noNewline, ih ho,
      hf.dropLineEnds_eq, List.cons_append]

theorem linesOf_of_isLine (h : IsLine s) : linesOf s = [s] := by
  rw [linesOf_of_not_mem h.noNewline, if_neg h.ne_empty, h.dropLineEnds_eq]

/-- Without the last newline there is a last line that has none. -/
theorem exists_of_append_newline_eq (h : bs ++ [newline] = encode (writeLines lines)) :
    ∃ others last, lines = others ++ [last] ∧ bs = encode (writeLines others ++ last) := by
  rcases List.eq_nil_or_concat lines with rfl | ⟨others, last, rfl⟩
  · exact absurd (congrArg List.length h) (by simp [writeLines])
  · have hw : writeLines (others ++ [last]) = writeLines others ++ last ++ "\n" := by
      rw [writeLines_append, writeLines, writeLines, String.append_empty, String.append_assoc]
    have hn : encode "\n" = [newline] := rfl
    rw [List.concat_eq_append, hw, encode_append, hn] at h
    exact ⟨others, last, List.concat_eq_append, List.append_cancel_right h⟩

/-- Lines that were written are read back. -/
theorem linesOf_of_written (hl : ∀ line ∈ lines, IsLine line) (h : Written lines bs) :
    linesOf (decodeLossy bs) = lines := by
  rcases h with rfl | h
  · have hw := linesOf_writeLines_append hl ""
    rw [String.append_empty] at hw
    rw [decodeLossy_encode, hw]
    exact List.append_nil lines
  · obtain ⟨others, last, rfl, rfl⟩ := exists_of_append_newline_eq h
    rw [decodeLossy_encode, linesOf_writeLines_append fun line hm => hl line (by simp [hm]),
      linesOf_of_isLine (hl last (by simp))]

end Writing
end ControlGroups.Text
