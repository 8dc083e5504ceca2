import ControlGroups.Proofs.Attribute.FirstLine
import ControlGroups.Proofs.KeyTable.Ending
import ControlGroups.Section

/-! How sections in a row share the lines of the bytes that they are read from. Each one takes the
next lines, none or some, and what it answers is settled by these lines alone. -/
namespace ControlGroups.Section

variable {β : Type} {s : Section β} {sections : List (Section β)} {bs final : Bytes}

/-- The lines that a section takes, with the lines behind them and its answer. An attribute takes
one line where there is any. -/
inductive Takes : Section β → List Bytes → List Bytes → Except ContentError β → Prop
  | nothing {α : Type} {a : Attribute α} {give : α → β} :
      Takes (.value a give) [] [] (.error .noValue)
  | line {α : Type} {a : Attribute α} {give : α → β} {l : Bytes} {left : List Bytes} :
      Takes (.value a give) [l] left ((a.answer l).map give)
  | table {α : Type} {t : KeyTable α} {give : α → β} {taken left : List Bytes}
      {answer : Except ContentError α} (ending : t.Ending none taken left answer) :
      Takes (.table t give) taken left (answer.map give)

/-- Sections that are read one after another, with the lines that each takes and the answer it
gives. The next one is read from the bytes that are left and nothing else. -/
inductive Shares : List (Section β) → Bytes → List (List Bytes) → List (Except ContentError β) →
    Bytes → Prop
  | nil {bs : Bytes} : Shares [] bs [] [] bs
  | cons {s : Section β} {sections : List (Section β)} {bs next final : Bytes} {share : List Bytes}
      {shares : List (List Bytes)} {answer : Except ContentError β}
      {answers : List (Except ContentError β)} (read : s.read bs = (answer, next))
      (split : Text.lines bs = share ++ Text.lines next)
      (takes : s.Takes share (Text.lines next) answer)
      (others : Shares sections next shares answers final) :
      Shares (s :: sections) bs (share :: shares) (answer :: answers) final

theorem exists_takes_read (s : Section β) (bs : Bytes) :
    ∃ share, Text.lines bs = share ++ Text.lines (s.read bs).2 ∧
      s.Takes share (Text.lines (s.read bs).2) (s.read bs).1 := by
  cases s with
  | value a give =>
    by_cases hb : bs = []
    · subst hb
      exact ⟨[], rfl, .nothing⟩
    · refine ⟨[(Text.cutLine bs).1], ?_, ?_⟩
      · rw [Text.lines_eq_cutLine hb, read, Attribute.read_eq_answer hb]
        rfl
      · rw [read, Attribute.read_eq_answer hb]
        exact .line
  | table t give =>
    obtain ⟨taken, hl, ending⟩ := t.exists_ending_read bs
    exact ⟨taken, hl, .table ending⟩

theorem exists_shares (sections : List (Section β)) (bs : Bytes) :
    ∃ shares, Shares sections bs shares (readAll sections bs).1 (readAll sections bs).2 := by
  induction sections generalizing bs with
  | nil => exact ⟨[], .nil⟩
  | cons s sections ih =>
    obtain ⟨share, hl, takes⟩ := exists_takes_read s bs
    obtain ⟨shares, others⟩ := ih (s.read bs).2
    exact ⟨share :: shares, .cons rfl hl takes others⟩

/-- The shares in a row, and what no section has taken, are all lines. -/
theorem Shares.lines_eq {shares : List (List Bytes)} {answers : List (Except ContentError β)}
    (h : Shares sections bs shares answers final) :
    Text.lines bs = shares.flatten ++ Text.lines final := by
  induction h with
  | nil => rfl
  | cons read split takes others ih => rw [split, ih, List.flatten_cons, List.append_assoc]

theorem readAll_append (before after : List (Section β)) (bs : Bytes) :
    readAll (before ++ after) bs =
      ((readAll before bs).1 ++ (readAll after (readAll before bs).2).1,
        (readAll after (readAll before bs).2).2) := by
  induction before generalizing bs with
  | nil => rfl
  | cons s before ih => simp only [List.cons_append, readAll_cons, ih]

theorem atLineStart_readAll (sections : List (Section β)) (bs : Bytes) :
    Text.AtLineStart bs (readAll sections bs).2 := by
  obtain ⟨shares, h⟩ := exists_shares sections bs
  exact Text.atLineStart_of_lines_eq h.lines_eq

/-- Sections in a row share the lines between them: no line is taken twice and none is passed over.
Each section finds its bytes at the start of a line and reads them as if there were no others, and
blanks around the one line of an attribute do not matter. -/
theorem readAll_shares_lines (sections : List (Section β)) (bs : Bytes) :
    (∃ shares, Shares sections bs shares (readAll sections bs).1 (readAll sections bs).2 ∧
      Text.lines bs = shares.flatten ++ Text.lines (readAll sections bs).2) ∧
    (∀ before after, sections = before ++ after →
      Text.AtLineStart bs (readAll before bs).2 ∧
      readAll sections bs =
        ((readAll before bs).1 ++ (readAll after (readAll before bs).2).1,
          (readAll after (readAll before bs).2).2)) ∧
    (∀ (α : Type) (a : Attribute α), a.read [] = (.error .noValue, []) ∧ a.ReadsLine) := by
  refine ⟨?_, ?_, fun α a => ⟨a.read_nil, a.readsLine⟩⟩
  · obtain ⟨shares, h⟩ := exists_shares sections bs
    exact ⟨shares, h, h.lines_eq⟩
  · rintro before after rfl
    exact ⟨atLineStart_readAll before bs, readAll_append before after bs⟩

/-- A line that is refused is taken like any other, and the table takes the lines up to the one that
completes it. -/
example : readAll [.value ⟨Content.int64⟩ id,
    .table ⟨"", false, 0, [("a", fun n _ => n)], by decide⟩ Int.ofNat, .value ⟨Content.int64⟩ id]
    (Text.encode "x\nb 2\na 1\n 7 \n8") =
      ([.error (.invalidValue "x" 1 .invalidDigit), .ok 1, .ok 7], Text.encode "8") := by
  rfl

end ControlGroups.Section
