import ControlGroups.Proofs.Failure
import ControlGroups.Proofs.Text.Lines
import ControlGroups.Scan

/-! What a scan hands on. The lines of the decoded file go one by one to the parser and their
records to the receiver, up to the first line that either of them fails on. -/
namespace ControlGroups

namespace Text

/-- The lines of decoded bytes come each from a line of the bytes and from nothing else. -/
theorem linesOf_decodeLossy {lines : List Bytes} {last : Bytes} (h : ∀ l ∈ lines, newline ∉ l)
    (hl : newline ∉ last) :
    linesOf (decodeLossy ((lines.map (· ++ [newline])).flatten ++ last)) =
      (lines ++ if last = [] then [] else [last]).map fun l => dropLineEnds (decodeLossy l) := by
  induction lines with
  | nil =>
    rw [List.map_nil, List.flatten_nil, List.nil_append, List.nil_append,
      linesOf_of_not_mem (newline_not_mem_decodeLossy hl)]
    by_cases hn : last = []
    · rw [if_pos (decodeLossy_eq_empty_iff.mpr hn), if_pos hn]
      rfl
    · rw [if_neg (mt decodeLossy_eq_empty_iff.mp hn), if_neg hn]
      rfl
  | cons l lines ih =>
    obtain ⟨hf, hs⟩ := List.forall_mem_cons.mp h
    rw [List.map_cons, List.flatten_cons, List.append_assoc, List.append_assoc,
      List.singleton_append, decodeLossy_append_newline,
      linesOf_append_newline (newline_not_mem_decodeLossy hf), ih hs]
    rfl

end Text

namespace Scan
variable {ρ σ : Type} {path : Path} {parse : σ → String → σ × Except LineError ρ}
  {receive : σ → ρ → Scan σ} {state final : σ} {lines : List String} {scan : Scan σ}

/-- Lines that a scan gets through, with the states before and after them. Each is parsed once, and
its record is received once before the next one is parsed. -/
inductive Passes (parse : σ → String → σ × Except LineError ρ) (receive : σ → ρ → Scan σ) :
    σ → List String → σ → Prop
  | nil {state : σ} : Passes parse receive state [] state
  | cons {state seen next final : σ} {line : String} {record : ρ} {lines : List String}
      (parsed : parse state line = (seen, .ok record))
      (received : receive seen record = ⟨next, none⟩)
      (others : Passes parse receive next lines final) :
      Passes parse receive state (line :: lines) final

/-- How a scan of some lines ends: behind the last one, or at the first one that the parser refuses
or whose record the receiver fails on. -/
inductive Ends (path : Path) (parse : σ → String → σ × Except LineError ρ)
    (receive : σ → ρ → Scan σ) (state : σ) (lines : List String) : Scan σ → Prop
  | through {final : σ} (passes : Passes parse receive state lines final) :
      Ends path parse receive state lines ⟨final, none⟩
  | refused {before after : List String} {line : String} {here seen : σ} {cause : LineError}
      (split : lines = before ++ line :: after) (passes : Passes parse receive state before here)
      (refused : parse here line = (seen, .error cause)) :
      Ends path parse receive state lines ⟨seen, some (.parse path cause)⟩
  | stopped {before after : List String} {line : String} {here seen next : σ} {record : ρ}
      {e : Error} (split : lines = before ++ line :: after)
      (passes : Passes parse receive state before here)
      (parsed : parse here line = (seen, .ok record))
      (stopped : receive seen record = ⟨next, some e⟩) :
      Ends path parse receive state lines ⟨next, some e⟩

theorem Passes.overLines_eq (h : Passes parse receive state lines final) :
    overLines path parse receive state lines = ⟨final, none⟩ := by
  induction h with
  | nil => rfl
  | cons parsed received others ih => simp only [overLines, parsed, received, ih]

theorem Ends.overLines_eq (h : Ends path parse receive state lines scan) :
    overLines path parse receive state lines = scan := by
  cases h with
  | through passes => exact passes.overLines_eq
  | refused split passes refused =>
    rw [split, overLines_append _ passes.overLines_eq]
    simp only [overLines, refused]
  | stopped split passes parsed stopped =>
    rw [split, overLines_append _ passes.overLines_eq]
    simp only [overLines, parsed, stopped]

/-- A line that was got through may stand before any way to end. -/
theorem Ends.cons {seen next : σ} {line : String} {record : ρ}
    (parsed : parse state line = (seen, .ok record)) (received : receive seen record = ⟨next, none⟩)
    (h : Ends path parse receive next lines scan) :
    Ends path parse receive state (line :: lines) scan := by
  cases h with
  | through passes => exact .through (.cons parsed received passes)
  | refused split passes refused =>
    exact .refused (congrArg (line :: ·) split) (.cons parsed received passes) refused
  | stopped split passes parsed' stopped =>
    exact .stopped (congrArg (line :: ·) split) (.cons parsed received passes) parsed' stopped

theorem ends_overLines (path : Path) (parse : σ → String → σ × Except LineError ρ)
    (receive : σ → ρ → Scan σ) (state : σ) (lines : List String) :
    Ends path parse receive state lines (overLines path parse receive state lines) := by
  induction lines generalizing state with
  | nil => exact .through .nil
  | cons line lines ih =>
    cases hp : parse state line with
    | mk seen answer =>
      cases answer with
      | error cause =>
        simp only [overLines, hp]
        exact .refused rfl .nil hp
      | ok record =>
        cases hr : receive seen record with
        | mk next failure =>
          simp only [overLines, hp, hr]
          cases failure with
          | none => exact .cons hp hr (ih next)
          | some e => exact .stopped rfl .nil hp hr

theorem ends_iff_overLines_eq :
    Ends path parse receive state lines scan ↔ overLines path parse receive state lines = scan := by
  constructor
  · exact Ends.overLines_eq
  · rintro rfl
    exact ends_overLines path parse receive state lines

/-- Only a scan that gets through all lines has no failure. -/
theorem Ends.failure_eq_none_iff (h : Ends path parse receive state lines scan) :
    scan.failure = none ↔ ∃ final, Passes parse receive state lines final := by
  constructor
  · intro hn
    cases h with
    | through passes => exact ⟨_, passes⟩
    | refused split passes refused => cases hn
    | stopped split passes parsed stopped => cases hn
  · rintro ⟨final, passes⟩
    rw [← h.overLines_eq, passes.overLines_eq]

theorem overFileWith_of_find {fs : FileSystem} {bs : Bytes}
    (h : fs.find path.clean = .ok (.file bs)) (parse : σ → String → σ × Except LineError ρ)
    (receive : σ → ρ → Scan σ) (state : σ) :
    overFileWith fs path parse receive state =
      overLines path.clean parse receive state (Text.linesOf (Text.decodeLossy bs)) := by
  rw [overFileWith_file h, textLines, Text.map_lineText_lines]

/-- A scan of a file takes the lines of its decoded text in order, ends with the first failure of
the parser or the receiver and asks neither of them again. Each line depends on its own bytes
alone. -/
theorem overFileWith_in_order {fs : FileSystem} {bs : Bytes}
    (h : fs.find path.clean = .ok (.file bs)) (parse : σ → String → σ × Except LineError ρ)
    (receive : σ → ρ → Scan σ) (state : σ) :
    (∀ scan, overFileWith fs path parse receive state = scan ↔
      Ends path.clean parse receive state (Text.linesOf (Text.decodeLossy bs)) scan) ∧
    ((overFileWith fs path parse receive state).failure = none ↔
      ∃ final, Passes parse receive state (Text.linesOf (Text.decodeLossy bs)) final) ∧
    (∀ (lines : List Bytes) (last : Bytes), (∀ l ∈ lines, Text.newline ∉ l) →
      Text.newline ∉ last → bs = (lines.map (· ++ [Text.newline])).flatten ++ last →
      Text.linesOf (Text.decodeLossy bs) = (lines ++ if last = [] then [] else [last]).map
        fun l => Text.dropLineEnds (Text.decodeLossy l)) := by
  rw [overFileWith_of_find h]
  refine ⟨fun scan => ends_iff_overLines_eq.symm,
    (ends_overLines _ _ _ _ _).failure_eq_none_iff, ?_⟩
  rintro lines last hl hn rfl
  exact Text.linesOf_decodeLossy hl hn

/-- Notes every line it is asked for and refuses the line `b`. -/
def parseNoting (log : List String) (line : String) : List String × Except LineError String :=
  (log ++ [line], if line = "b" then .error (.membership (.malformed line)) else .ok line)

def receiveNoting (log : List String) (record : String) : Scan (List String) :=
  ⟨log ++ [record ++ " received"], none⟩

/-- A file of the lines `a`, `b` and `c`, the first with a byte that is not UTF-8. -/
def listFiles : FileSystem where
  entries := [(["list"], .file ([0x61, 0xFF, 0x0D, 0x0A] ++ Text.encode "b\nc"))]
  workingDirectory := []

/-- The malformed byte stays in its line, and the line behind the refused one is not asked for. -/
theorem overFileWith_in_order_listFiles :
    overFileWith listFiles ⟨"list"⟩ parseNoting receiveNoting [] =
        ⟨["a\uFFFD", "a\uFFFD received", "b"],
          some (.parse ⟨"list"⟩ (.membership (.malformed "b")))⟩ ∧
      Text.linesOf (Text.decodeLossy ([0x61, 0xFF, 0x0D, 0x0A] ++ Text.encode "b\nc")) =
        ["a\uFFFD", "b", "c"] := by
  have hf : listFiles.find (Path.mk "list").clean =
      .ok (.file ([0x61, 0xFF, 0x0D, 0x0A] ++ Text.encode "b\nc")) :=
    eq_ok_of_toOption (by decide)
  obtain ⟨hends, -, hlines⟩ := overFileWith_in_order hf parseNoting receiveNoting []
  have hl : Text.linesOf (Text.decodeLossy ([0x61, 0xFF, 0x0D, 0x0A] ++ Text.encode "b\nc")) =
      ["a\uFFFD", "b", "c"] := by
    rw [hlines [[0x61, 0xFF, 0x0D], [0x62]] [0x63] (by decide) (by decide)
      (by decide)]
    decide
  have ha : parseNoting [] "a\uFFFD" = (["a\uFFFD"], .ok "a\uFFFD") := by simp [parseNoting]
  have hp : Passes parseNoting receiveNoting [] ["a\uFFFD"] ["a\uFFFD", "a\uFFFD received"] :=
    .cons ha rfl .nil
  have hb : parseNoting ["a\uFFFD", "a\uFFFD received"] "b" =
      (["a\uFFFD", "a\uFFFD received", "b"], .error (.membership (.malformed "b"))) := rfl
  have hs : ["a\uFFFD", "b", "c"] = ["a\uFFFD"] ++ "b" :: ["c"] := rfl
  have hpath : (Path.mk "list").clean = ⟨"list"⟩ := by decide
  refine ⟨(hends _).mpr ?_, hl⟩
  rw [hl, hpath]
  exact .refused hs hp hb

end Scan
end ControlGroups
