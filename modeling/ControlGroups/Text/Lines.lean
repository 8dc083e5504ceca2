import ControlGroups.Text.Utf8

/-! The lines of a file. A line ends with its newline, which only the last one may lack, so the
lines of a file in a row are the file. -/
namespace ControlGroups.Text

def newline : UInt8 := 0x0A

/-- The first line with its newline, and the bytes after it. -/
def cutLine : Bytes → Bytes × Bytes
  | [] => ([], [])
  | b :: bs =>
    if b = newline then ([b], bs)
    else (b :: (cutLine bs).1, (cutLine bs).2)

/-- All lines in order, each with its newline. -/
def lines : Bytes → List Bytes
  | [] => []
  | b :: bs =>
    if b = newline then [b] :: lines bs
    else match lines bs with
      | [] => [[b]]
      | l :: ls => (b :: l) :: ls

/-- Whether a character only ends a line. -/
def isLineEnd (c : Char) : Bool := c == '\n' || c == '\r'

/-- The text of a line without the line ends that close it. -/
def lineText (l : Bytes) : String :=
  String.ofList (((decodeLossy l).toList.reverse.dropWhile isLineEnd).reverse)

@[simp] theorem lines_flatten (bs : Bytes) : (lines bs).flatten = bs := by
  induction bs with
  | nil => rfl
  | cons b bs ih =>
    by_cases h : b = newline
    · simp [lines, h, ih]
    · cases hl : lines bs <;> simp_all [lines]

theorem lines_ne_nil {bs : Bytes} (h : bs ≠ []) : lines bs ≠ [] := fun hl =>
  h (by simpa [hl] using (lines_flatten bs).symm)

/-- Cutting off the first line leaves the other lines. -/
theorem lines_eq_cutLine {bs : Bytes} (h : bs ≠ []) :
    lines bs = (cutLine bs).1 :: lines (cutLine bs).2 := by
  induction bs with
  | nil => exact absurd rfl h
  | cons b bs ih =>
    by_cases hb : b = newline
    · simp [lines, cutLine, hb]
    · cases bs with
      | nil => simp [lines, cutLine, hb]
      | cons c cs =>
        have hl := ih (by simp)
        generalize c :: cs = rest at hl
        simp [lines, cutLine, hb, hl]

end ControlGroups.Text
