import ControlGroups.Proofs.Scan.Folding
import Mathlib.Data.List.Perm.Basic
import Mathlib.Data.Set.List

/-! The failures of a file in the order in which a scan comes to them. A scan ends with the first
one, so what stands after it has no part in the answer. -/
namespace ControlGroups

/-- Two lists with the same first element. -/
def StartAlike {α : Type} (l l' : List α) : Prop := ∃ a, l.head? = some a ∧ l'.head? = some a

section Start
variable {α : Type} {l l' : List α}

theorem StartAlike.refl (h : l ≠ []) : StartAlike l l := by
  cases l with
  | nil => exact absurd rfl h
  | cons a l => exact ⟨a, rfl, rfl⟩

theorem StartAlike.append (h : StartAlike l l') (more more' : List α) :
    StartAlike (l ++ more) (l' ++ more') := by
  obtain ⟨a, hl, hl'⟩ := h
  exact ⟨a, by rw [List.head?_append, hl, Option.some_or],
    by rw [List.head?_append, hl', Option.some_or]⟩

theorem StartAlike.behind (h : StartAlike l l') (before : List α) :
    StartAlike (before ++ l) (before ++ l') := by
  cases before with
  | nil => exact h
  | cons a before => exact ⟨a, rfl, rfl⟩

end Start

namespace Scan
variable {ρ σ : Type} {parse : String → Except LineError ρ} {step : σ → ρ → Except Error σ}
  {refuse : ρ → List Error} {fs fs' : FileSystem} {path : Path} {lines : List String}

/-- A file with these lines, found under the normal spelling of a path. -/
def HasLines (fs : FileSystem) (path : Path) (lines : List String) : Prop :=
  ∃ bs, fs.find path.clean = .ok (.file bs) ∧ textLines bs = lines

/-- What can be read of a file, found under the normal spelling of a path: some lines, and the
failure behind them where they do not end the file. -/
def Shows (fs : FileSystem) (path : Path) (lines : List String) (fault : Option FileError) : Prop :=
  ∃ node, fs.find path.clean = .ok node ∧ nodeLines node = lines ∧ node.fault = fault

theorem HasLines.shows (h : HasLines fs path lines) : Shows fs path lines none := by
  obtain ⟨bs, hf, hl⟩ := h
  exact ⟨.file bs, hf, hl, rfl⟩

/-- The records of a file, without the lines that do not parse. -/
def records (fs : FileSystem) (path : Path) (parse : String → Except LineError ρ) : List ρ :=
  match fs.find path.clean with
  | .ok node => (nodeLines node).filterMap fun line => (parse line).toOption
  | .error _ => []

/-- The failures of a line: that it does not parse, or those of its record. -/
def lineFailures (path : Path) (parse : String → Except LineError ρ) (refuse : ρ → List Error)
    (line : String) : List Error :=
  match parse line with
  | .error cause => [.parse path cause]
  | .ok record => refuse record

/-- The failures of a file in their order: that it cannot be opened, or those of the lines that can
be read and, behind them, that no more can be read. -/
def failures (fs : FileSystem) (path : Path) (parse : String → Except LineError ρ)
    (refuse : ρ → List Error) : List Error :=
  match fs.find path.clean with
  | .error cause => [.fileOpen path.clean cause]
  | .ok node =>
    (nodeLines node).flatMap (lineFailures path.clean parse refuse) ++
      (node.fault.map (.readLine path.clean)).toList

/-- Files with the same lines in some order have the same records in some order. -/
theorem exists_reads_of_perm {path' : Path} {lines' : List String} {rs : List ρ}
    (hr : Reads fs path parse rs) (h : HasLines fs path lines) (h' : HasLines fs' path' lines')
    (hp : lines.Perm lines') : ∃ rs', rs.Perm rs' ∧ Reads fs' path' parse rs' := by
  obtain ⟨bs, hf, hr⟩ := hr
  obtain ⟨_, hf', rfl⟩ := h
  cases hf.symm.trans hf'
  obtain ⟨bs', hf', rfl⟩ := h'
  have hm := hp.map parse
  rw [hr] at hm
  have hok : (textLines bs').map parse ∈ Set.range (List.map Except.ok) := by
    rw [Set.range_list_map]
    intro parsed ho
    obtain ⟨record, -, rfl⟩ := List.mem_map.mp (hm.mem_iff.mpr ho)
    exact ⟨record, rfl⟩
  obtain ⟨rs', hr'⟩ := hok
  rw [← hr', List.map_perm_map_iff fun _ _ => Except.ok.inj] at hm
  exact ⟨rs', hm, bs', hf', hr'.symm⟩

theorem records_of_reads {rs : List ρ} (h : Reads fs path parse rs) :
    records fs path parse = rs := by
  obtain ⟨bs, hf, hr⟩ := h
  have hm : records fs path parse = ((textLines bs).map parse).filterMap Except.toOption := by
    simp only [records, hf, nodeLines_file, List.filterMap_map]
    rfl
  rw [hm, hr, List.filterMap_map]
  exact List.filterMap_some

theorem records_congr (h : fs.AgreeOn fs' path) :
    records fs' path parse = records fs path parse := by
  rw [records, records, h.find_eq]

theorem failures_congr (h : fs.AgreeOn fs' path) :
    failures fs' path parse refuse = failures fs path parse refuse := by
  rw [failures, failures, h.find_eq]

theorem Shows.failures_eq {fault : Option FileError} (h : Shows fs path lines fault) :
    failures fs path parse refuse = lines.flatMap (lineFailures path.clean parse refuse) ++
      (fault.map (Error.readLine path.clean)).toList := by
  obtain ⟨node, hf, rfl, rfl⟩ := h
  simp only [failures, hf]

theorem lineStep_eq_error_iff (h : ∀ s r e, step s r = .error e ↔ (refuse r).head? = some e)
    (state : σ) (line : String) (e : Error) : lineStep path parse step state line = .error e ↔
      (lineFailures path parse refuse line).head? = some e := by
  rw [lineStep, lineFailures]
  cases hp : parse line with
  | error cause => simp
  | ok record =>
    rw [mapError_ok, ok_bind]
    exact h state record e

/-- A fold over a file ends with the first failure of the file. -/
theorem foldFile_eq_error_iff (h : ∀ s r e, step s r = .error e ↔ (refuse r).head? = some e)
    {state : σ} {e : Error} : foldFile fs path parse step state = .error e ↔
      (failures fs path parse refuse).head? = some e := by
  cases hf : fs.find path.clean with
  | error cause => simp [foldFile, overFile, overFileWith, failures, hf, result]
  | ok node =>
    have hs : ∀ s line e, lineStep path.clean parse step s line = .error e ↔
        (lineFailures path.clean parse refuse line).head? = some e := lineStep_eq_error_iff h
    rw [foldFile_of_find hf]
    simp only [failures, hf]
    refine bind_eq_error_iff_head? (fun e => foldlM_eq_error_iff_head? hs) fun last _ => ?_
    cases node.fault <;> simp [result]

/-- Lines that fail alike end a scan alike, whatever follows them. -/
theorem startAlike_failures {before after after' : List String} {line line' : String}
    {fault fault' : Option FileError} (h : Shows fs path (before ++ line :: after) fault)
    (h' : Shows fs' path (before ++ line' :: after') fault')
    (hl : StartAlike (lineFailures path.clean parse refuse line)
      (lineFailures path.clean parse refuse line')) :
    StartAlike (failures fs path parse refuse) (failures fs' path parse refuse) := by
  rw [h.failures_eq, h'.failures_eq, List.flatMap_append, List.flatMap_append, List.flatMap_cons,
    List.flatMap_cons, List.append_assoc, List.append_assoc, List.append_assoc, List.append_assoc]
  exact (hl.append _ _).behind _

/-- A failure to read ends a scan behind the lines before it. -/
theorem startAlike_failures_of_unread {cause : FileError} (h : Shows fs path lines (some cause))
    (h' : Shows fs' path lines (some cause)) :
    StartAlike (failures fs path parse refuse) (failures fs' path parse refuse) := by
  rw [h.failures_eq, h'.failures_eq]
  exact .refl (by simp)

theorem lineFailures_of_error {cause : LineError} {line : String} (h : parse line = .error cause) :
    lineFailures path parse refuse line = [.parse path cause] := by
  simp only [lineFailures, h]

theorem lineFailures_of_ok {record : ρ} {line : String} (h : parse line = .ok record) :
    lineFailures path parse refuse line = refuse record := by
  simp only [lineFailures, h]

/-- A file fails because of itself, of a line or of a record. -/
theorem mem_failures {e : Error} (h : e ∈ failures fs path parse refuse) :
    (∃ cause, e = .fileOpen path.clean cause) ∨ (∃ cause, e = .readLine path.clean cause) ∨
      (∃ cause, e = .parse path.clean cause) ∨ ∃ record, e ∈ refuse record := by
  rw [failures] at h
  split at h
  · rename_i cause _
    exact .inl ⟨cause, List.mem_singleton.mp h⟩
  · rcases List.mem_append.mp h with h | h
    · obtain ⟨line, -, hl⟩ := List.mem_flatMap.mp h
      rw [lineFailures] at hl
      split at hl
      · rename_i cause _
        exact .inr (.inr (.inl ⟨cause, List.mem_singleton.mp hl⟩))
      · rename_i record _
        exact .inr (.inr (.inr ⟨record, hl⟩))
    · obtain ⟨cause, -, rfl⟩ := Option.map_eq_some_iff.mp (Option.mem_toList.mp h)
      exact .inr (.inl ⟨cause, rfl⟩)

/-- How a file fails where no record does: it cannot be opened, or some line is the first one that
does not parse, wherever it stands, or all lines parse and behind them no more can be read. -/
inductive Broken (fs : FileSystem) (path : Path) (parse : String → Except LineError ρ) :
    Error → Prop
  | unopened {cause : FileError} (h : fs.find path.clean = .error cause) :
      Broken fs path parse (.fileOpen path.clean cause)
  | refused {before after : List String} {line : String} {fault : Option FileError}
      {cause : LineError} (shows : Shows fs path (before ++ line :: after) fault)
      (parsed : ∀ other ∈ before, ∃ record, parse other = .ok record)
      (refused : parse line = .error cause) : Broken fs path parse (.parse path.clean cause)
  | unread {lines : List String} {cause : FileError} (shows : Shows fs path lines (some cause))
      (parsed : ∀ line ∈ lines, ∃ record, parse line = .ok record) :
      Broken fs path parse (.readLine path.clean cause)

theorem head?_lineFailures_eq_some_iff {line : String} {e : Error} :
    (lineFailures path parse (fun _ => []) line).head? = some e ↔
      ∃ cause, parse line = .error cause ∧ e = .parse path cause := by
  rw [lineFailures]
  cases parse line with
  | error cause => simp [eq_comm]
  | ok record => simp

theorem head?_lineFailures_eq_none_iff {line : String} :
    (lineFailures path parse (fun _ => []) line).head? = none ↔
      ∃ record, parse line = .ok record := by
  rw [lineFailures]
  cases parse line with
  | error cause => simp
  | ok record => simp

/-- The first failure of some lines is that of the first one that does not parse. -/
theorem head?_flatMap_lineFailures_eq_some_iff {e : Error} :
    (lines.flatMap (lineFailures path parse fun _ => [])).head? = some e ↔
      ∃ before line after cause, lines = before ++ line :: after ∧
        (∀ other ∈ before, ∃ record, parse other = .ok record) ∧ parse line = .error cause ∧
        e = .parse path cause := by
  rw [List.head?_flatMap, List.findSome?_eq_some_iff]
  simp only [head?_lineFailures_eq_some_iff, head?_lineFailures_eq_none_iff]
  constructor
  · rintro ⟨before, line, after, hs, ⟨cause, hp, he⟩, hb⟩
    exact ⟨before, line, after, cause, hs, hb, hp, he⟩
  · rintro ⟨before, line, after, cause, hs, hb, hp, he⟩
    exact ⟨before, line, after, hs, ⟨cause, hp, he⟩, hb⟩

theorem head?_flatMap_lineFailures_eq_none_iff :
    (lines.flatMap (lineFailures path parse fun _ => [])).head? = none ↔
      ∀ line ∈ lines, ∃ record, parse line = .ok record := by
  simp only [List.head?_flatMap, List.findSome?_eq_none_iff, head?_lineFailures_eq_none_iff]

/-- Where no record is refused, the first failure of a file is how it is broken. -/
theorem head?_failures_eq_some_iff {e : Error} :
    (failures fs path parse fun _ => []).head? = some e ↔ Broken fs path parse e := by
  constructor
  · intro h
    cases hf : fs.find path.clean with
    | error cause =>
      simp only [failures, hf, List.head?_cons, Option.some.injEq] at h
      exact h ▸ .unopened hf
    | ok node =>
      have hs : Shows fs path (nodeLines node) node.fault := ⟨node, hf, rfl, rfl⟩
      rw [hs.failures_eq, List.head?_append, Option.or_eq_some_iff] at h
      rcases h with h | ⟨hn, h⟩
      · obtain ⟨before, line, after, cause, hl, hb, hp, rfl⟩ :=
          head?_flatMap_lineFailures_eq_some_iff.mp h
        exact .refused (hl ▸ hs) hb hp
      · obtain ⟨cause, hc, rfl⟩ := Option.map_eq_some_iff.mp (Option.head?_toList.symm.trans h)
        exact .unread (hc ▸ hs) (head?_flatMap_lineFailures_eq_none_iff.mp hn)
  · rintro (h | ⟨shows, parsed, refused⟩ | ⟨shows, parsed⟩)
    · simp only [failures, h, List.head?_cons]
    · rw [shows.failures_eq, List.head?_append,
        head?_flatMap_lineFailures_eq_some_iff.mpr ⟨_, _, _, _, rfl, parsed, refused, rfl⟩,
        Option.some_or]
    · rw [shows.failures_eq, List.head?_append,
        head?_flatMap_lineFailures_eq_none_iff.mpr parsed, Option.none_or]
      rfl

/-- A fold whose step never fails ends as the file is broken, whatever it has found before. -/
theorem foldFile_ok_eq_error_iff (take : σ → ρ → σ) {state : σ} {e : Error} :
    foldFile fs path parse (fun s r => .ok (take s r)) state = .error e ↔
      Broken fs path parse e := by
  rw [← head?_failures_eq_some_iff]
  exact foldFile_eq_error_iff (by simp)

/-- A file is broken or all its lines parse. -/
theorem broken_or_reads (fs : FileSystem) (path : Path) (parse : String → Except LineError ρ) :
    (∃ e, Broken fs path parse e) ∨ ∃ records, Reads fs path parse records := by
  cases h : foldFile fs path parse (fun s _ => .ok s) () with
  | error e => exact .inl ⟨e, (foldFile_ok_eq_error_iff _).mp h⟩
  | ok _ =>
    obtain ⟨records, hr, -⟩ := foldFile_eq_ok_iff.mp h
    exact .inr ⟨records, hr⟩

end Scan
end ControlGroups
