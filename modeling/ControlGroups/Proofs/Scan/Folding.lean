import ControlGroups.Proofs.Failure
import ControlGroups.Scan

/-! A scan with a step that may fail is a fold over the lines of the file, and where it goes
through it is the same fold over the records on them. -/
namespace ControlGroups

/-- Two trees that lead a path to the same node or to the same failure. The path is taken in its
normal spelling, under which all files but the signs of a container are opened. -/
def FileSystem.AgreeOn (fs fs' : FileSystem) (path : Path) : Prop :=
  fs'.find path.clean = fs.find path.clean

theorem FileSystem.AgreeOn.find_eq {fs fs' : FileSystem} {path : Path} (h : fs.AgreeOn fs' path) :
    fs'.find path.clean = fs.find path.clean := h

namespace Scan

variable {ρ σ : Type} {parse : String → Except LineError ρ} {step : σ → ρ → Except Error σ}

/-- A file whose lines all parse, found under the normal spelling of a path, with its records in
the order of the lines. -/
def Reads (fs : FileSystem) (path : Path) (parse : String → Except LineError ρ)
    (records : List ρ) : Prop :=
  ∃ bs, fs.find path.clean = .ok (.file bs) ∧ (textLines bs).map parse = records.map .ok

/-- One line of a scan: the line is parsed, and its record is handed on. -/
def lineStep (path : Path) (parse : String → Except LineError ρ) (step : σ → ρ → Except Error σ)
    (state : σ) (line : String) : Except Error σ :=
  (parse line).mapError (.parse path) >>= step state

theorem lineStep_of_parse {path : Path} {line : String} {record : ρ}
    (h : parse line = .ok record) (state : σ) :
    lineStep path parse step state line = step state record := by
  rw [lineStep, h]
  rfl

/-- A scan ends as the fold over its lines ends. -/
theorem result_overLines (path : Path) (state : σ) (lines : List String) :
    (overLines path (stateless parse) (fun s r => ofExcept s (step s r)) state lines).result =
      lines.foldlM (lineStep path parse step) state := by
  induction lines generalizing state with
  | nil => rfl
  | cons line lines ih =>
    rw [overLines, stateless, List.foldlM_cons]
    cases hp : parse line with
    | error e => simp [lineStep, hp, result]
    | ok record =>
      rw [lineStep_of_parse hp]
      cases hs : step state record with
      | error e => simp [ofExcept, hs, result]
      | ok next => simpa [ofExcept, hs] using ih next

theorem foldlM_lineStep {path : Path} {lines : List String} {records : List ρ}
    (h : lines.map parse = records.map .ok) (state : σ) :
    lines.foldlM (lineStep path parse step) state = records.foldlM step state := by
  induction lines generalizing records state with
  | nil =>
    have hr : records = [] := by simpa using h.symm
    rw [hr]
    rfl
  | cons line lines ih =>
    cases records with
    | nil => simp at h
    | cons record records =>
      obtain ⟨hp, ht⟩ := List.cons.inj h
      rw [List.foldlM_cons, List.foldlM_cons, lineStep_of_parse hp]
      apply bind_congr
      intro next
      exact ih ht next

theorem exists_records_of_foldlM {path : Path} {lines : List String} {state final : σ}
    (h : lines.foldlM (lineStep path parse step) state = .ok final) :
    ∃ records : List ρ, lines.map parse = records.map .ok := by
  induction lines generalizing state with
  | nil => exact ⟨[], rfl⟩
  | cons line lines ih =>
    rw [List.foldlM_cons] at h
    obtain ⟨next, hl, h⟩ := bind_eq_ok_iff.mp h
    obtain ⟨record, hp, _⟩ := bind_eq_ok_iff.mp hl
    obtain ⟨records, hr⟩ := ih h
    refine ⟨record :: records, ?_⟩
    rw [List.map_cons, List.map_cons, hr, mapError_eq_ok_iff.mp hp]

theorem foldFile_congr {fs fs' : FileSystem} {path : Path} (h : fs.AgreeOn fs' path) (state : σ) :
    foldFile fs' path parse step state = foldFile fs path parse step state := by
  simp only [foldFile, overFile, overFileWith, h.find_eq]

theorem fault_eq_none_of_endIn {s : Scan σ} {node : Node} {toError : FileError → Error}
    (h : (s.endIn (node.fault.map toError)).failure = none) : node.fault = none := by
  obtain ⟨state, _ | e⟩ := s
  · exact Option.map_eq_none_iff.mp h
  · cases h

theorem result_endIn (s : Scan σ) (failure : Option Error) :
    (s.endIn failure).result = s.result >>= fun final => result ⟨final, failure⟩ := by
  obtain ⟨state, _ | e⟩ := s <;> rfl

/-- A fold over a file is the fold over the lines that can be read, behind which it fails where they
do not end the file. -/
theorem foldFile_of_find {fs : FileSystem} {path : Path} {node : Node}
    (h : fs.find path.clean = .ok node) (state : σ) :
    foldFile fs path parse step state =
      (nodeLines node).foldlM (lineStep path.clean parse step) state >>=
        fun final => result ⟨final, node.fault.map (.readLine path.clean)⟩ := by
  rw [foldFile, overFile, overFileWith, h, ← result_overLines]
  exact result_endIn _ _

theorem foldFile_of_reads {fs : FileSystem} {path : Path} {records : List ρ}
    (h : Reads fs path parse records) (state : σ) :
    foldFile fs path parse step state = records.foldlM step state := by
  obtain ⟨bs, hf, hr⟩ := h
  rw [foldFile_of_find hf, nodeLines_file, foldlM_lineStep hr]
  exact bind_pure _

/-- A step that never fails takes all records. -/
theorem foldlM_ok (take : σ → ρ → σ) (state : σ) (records : List ρ) :
    records.foldlM (fun s r => .ok (take s r)) state =
      (.ok (records.foldl take state) : Except Error σ) := List.foldlM_pure

theorem foldFile_ok_of_reads {fs : FileSystem} {path : Path} {records : List ρ}
    (h : Reads fs path parse records) (take : σ → ρ → σ) (state : σ) :
    foldFile fs path parse (fun s r => .ok (take s r)) state = .ok (records.foldl take state) := by
  rw [foldFile_of_reads h, foldlM_ok]

/-- A fold over a file goes through exactly where all its lines parse and the step accepts the
records one after another. -/
theorem foldFile_eq_ok_iff {fs : FileSystem} {path : Path} {state final : σ} :
    foldFile fs path parse step state = .ok final ↔
      ∃ records, Reads fs path parse records ∧ records.foldlM step state = .ok final := by
  constructor
  · intro h
    cases hf : fs.find path.clean with
    | error e => simp [foldFile, overFile, overFileWith, hf, result] at h
    | ok node =>
      rw [foldFile_of_find hf] at h
      obtain ⟨last, hl, h⟩ := bind_eq_ok_iff.mp h
      cases hn : node.fault with
      | some cause => simp [hn, result] at h
      | none =>
        obtain rfl : last = final := by simpa [hn, result] using h
        rw [Node.eq_file_of_fault hn] at hf hl
        obtain ⟨records, hr⟩ := exists_records_of_foldlM hl
        exact ⟨records, ⟨_, hf, hr⟩, (foldlM_lineStep hr state).symm.trans hl⟩
  · rintro ⟨records, hr, h⟩
    rw [foldFile_of_reads hr, h]

end Scan
end ControlGroups
