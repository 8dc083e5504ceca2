import ControlGroups.Attribute.Basic
import ControlGroups.Proofs.Text.Blank
import ControlGroups.Proofs.Text.Lines

/-! The first line of an attribute file. Blanks around its content change nothing, not even where
the content is no text, and the bytes behind the line are left as they are. -/
namespace ControlGroups

/-- Bytes whose first line is a text between blanks. Anything may stand on later lines. -/
def Content.OnFirstLine (s : String) (bs : Bytes) : Prop :=
  ∃ u v, Text.Blanks u ∧ Text.Blanks v ∧ '\n' ∉ u.toList ∧ '\n' ∉ v.toList ∧
    (bs = Text.encode (u ++ s ++ v) ∨
      ∃ more, bs = Text.encode (u ++ s ++ v) ++ Text.newline :: more)

theorem Content.onFirstLine_encode (s : String) : OnFirstLine s (Text.encode s) :=
  ⟨"", "", Text.blanks_empty, Text.blanks_empty, by simp, by simp, .inl (by simp)⟩

theorem Content.onFirstLine_newline (s : String) (more : Bytes) :
    OnFirstLine s (Text.encode s ++ Text.newline :: more) :=
  ⟨"", "", Text.blanks_empty, Text.blanks_empty, by simp, by simp, .inr ⟨more, by simp⟩⟩

/-- A file of a directory has one of some texts on its first line. -/
def FileSystem.Holds (fs : FileSystem) (directory : Path) (name : String)
    (text : String → Prop) : Prop :=
  ∃ s bs, text s ∧ fs.find (directory.join ⟨name⟩).clean = .ok (.file bs) ∧
    Content.OnFirstLine s bs

namespace Attribute
variable {α : Type} {u v s : String} {line bs : Bytes}

/-- The answer for a line, taken by itself. -/
def answer (a : Attribute α) (line : Bytes) : Except ContentError α :=
  (Content.lineText line).map Text.trim >>= a.parse

/-- How an attribute reads a line. It takes the line with its newline and nothing behind it,
whatever the answer, and blanks around the content do not change the answer. -/
def ReadsLine (a : Attribute α) : Prop :=
  ∀ line, Text.newline ∉ line → ∃ answer, ∀ u v, Text.Blanks u → Text.Blanks v →
    '\n' ∉ u.toList → '\n' ∉ v.toList →
      (∀ more, a.read (Text.encode u ++ line ++ Text.encode v ++ Text.newline :: more) =
        (answer, more)) ∧
      (Text.encode u ++ line ++ Text.encode v ≠ [] →
        a.read (Text.encode u ++ line ++ Text.encode v) = (answer, []))

theorem answer_blanks (hu : Text.Blanks u) (hv : Text.Blanks v) (a : Attribute α) (line : Bytes) :
    a.answer (Text.encode u ++ line ++ Text.encode v) = a.answer line := by
  rw [answer, answer, Content.lineText, Content.lineText, Text.decode?_encode_append]
  cases Text.decode? line with
  | none => rfl
  | some s =>
    have ht : Text.trim (u ++ s ++ v) = Text.trim s := Text.trim_append hu hv s
    simp only [Option.map_some, Except.map, ht]

theorem answer_newline (a : Attribute α) (line : Bytes) :
    a.answer (line ++ [Text.newline]) = a.answer line :=
  answer_blanks Text.blanks_empty Text.blanks_newline a line

theorem read_eq_answer {bs : Bytes} (h : bs ≠ []) (a : Attribute α) :
    a.read bs = (a.answer (Text.cutLine bs).1, (Text.cutLine bs).2) := by
  rw [read, Content.firstValue, if_neg h]
  rfl

/-- A line with its newline, whatever stands behind it. -/
theorem read_append_newline (h : Text.newline ∉ line) (a : Attribute α) (more : Bytes) :
    a.read (line ++ Text.newline :: more) = (a.answer line, more) := by
  rw [read_eq_answer (by simp), Text.cutLine_append_newline h, answer_newline]

/-- A line that lacks its newline is the last one. -/
theorem read_of_not_mem (h : Text.newline ∉ line) (hne : line ≠ []) (a : Attribute α) :
    a.read line = (a.answer line, []) := by
  rw [read_eq_answer hne, Text.cutLine_of_not_mem h]

theorem answer_encode (a : Attribute α) (s : String) :
    a.answer (Text.encode s) = a.parse (Text.trim s) := by
  rw [answer, Content.lineText, Text.decode?_encode]
  rfl

theorem read_of_onFirstLine (a : Attribute α) (hne : s ≠ "") (hs : '\n' ∉ s.toList)
    (h : Content.OnFirstLine s bs) : (a.read bs).1 = a.parse (Text.trim s) := by
  obtain ⟨u, v, hu, hv, hnu, hnv, hb⟩ := h
  have hn : Text.newline ∉ Text.encode (u ++ s ++ v) := by
    apply Text.newline_not_mem_encode
    simp only [String.toList_append, List.mem_append, not_or]
    exact ⟨⟨hnu, hs⟩, hnv⟩
  have ha : a.answer (Text.encode (u ++ s ++ v)) = a.parse (Text.trim s) := by
    rw [answer_encode, Text.trim_append hu hv]
  have he : Text.encode (u ++ s ++ v) ≠ [] := by
    intro he
    have hd := Text.decode?_encode (u ++ s ++ v)
    rw [he] at hd
    have hl : (u ++ s ++ v).toList = [] := congrArg String.toList (Option.some.inj hd).symm
    rw [String.toList_append, String.toList_append, List.append_eq_nil_iff,
      List.append_eq_nil_iff] at hl
    exact hne (String.toList_eq_nil_iff.mp hl.1.2)
  rcases hb with rfl | ⟨more, rfl⟩
  · rw [read_of_not_mem hn he, ha]
  · rw [read_append_newline hn, ha]

/-- A file that holds a value on its first line is read for that value. -/
theorem readAt_of_onFirstLine {fs : FileSystem} {path : Path} {a : Attribute α} {value : α}
    (hf : fs.find path.clean = .ok (.file bs)) (hne : s ≠ "") (hs : '\n' ∉ s.toList)
    (h : Content.OnFirstLine s bs) (hp : a.parse (Text.trim s) = .ok value) :
    readAt fs path a = .ok (some value) := by
  have hr := read_of_onFirstLine a hne hs h
  rw [hp] at hr
  simp only [readAt, hf, readNode_file, hr]

theorem readIn_of_holds {fs : FileSystem} {directory : Path} {name : String}
    {text : String → Prop} {a : Attribute α} {value : α} (h : fs.Holds directory name text)
    (ht : ∀ s, text s → s ≠ "" ∧ '\n' ∉ s.toList ∧ a.parse (Text.trim s) = .ok value) :
    readIn fs directory name a = .ok (some value) := by
  obtain ⟨s, bs, hs, hf, hl⟩ := h
  obtain ⟨hne, hn, hp⟩ := ht s hs
  exact readAt_of_onFirstLine hf hne hn hl hp

theorem readsLine (a : Attribute α) : a.ReadsLine := by
  intro line hl
  refine ⟨a.answer line, fun u v hu hv hnu hnv => ?_⟩
  have hn : Text.newline ∉ Text.encode u ++ line ++ Text.encode v := by
    simp only [List.mem_append, not_or]
    exact ⟨⟨Text.newline_not_mem_encode hnu, hl⟩, Text.newline_not_mem_encode hnv⟩
  have ha : a.answer (Text.encode u ++ line ++ Text.encode v) = a.answer line :=
    answer_blanks hu hv a line
  constructor
  · intro more
    rw [read_append_newline hn, ha]
  · intro hne
    rw [read_of_not_mem hn hne, ha]

end Attribute
end ControlGroups
