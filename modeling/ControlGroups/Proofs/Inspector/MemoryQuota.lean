import ControlGroups.Proofs.Attribute.MemoryLimit
import ControlGroups.Proofs.Inspector.Asking

/-! The memory limit of a process from the files up: a value, no limit or a failure, and in which
of these cases the memory of the machine is reported in its place. -/
namespace ControlGroups

namespace Attribute

theorem memoryMax_parse_eq_none_iff {value : String} :
    memoryMax.parse value = .ok none ↔ value = "max" := by
  by_cases hv : value = "max"
  · simp [memoryMax, parseLimit, unlimitedWord, hv]
  · simp [memoryMax, parseLimit, unlimitedWord, hv, map_eq_ok_iff]

theorem memoryMax_parse_eq_some_iff {value : String} {n : Int} :
    memoryMax.parse value = .ok (some n) ↔ value ≠ "max" ∧ Text.readInt64 value = .ok n := by
  by_cases hv : value = "max"
  · simp [memoryMax, parseLimit, unlimitedWord, hv]
  · simp [memoryMax, parseLimit, unlimitedWord, hv, map_eq_ok_iff, Content.int64,
      mapError_eq_ok_iff]

end Attribute

namespace Inspector
variable {fs : FileSystem} {i : Inspector}

/-- The file that holds the memory limit of a process, and how its value is read. -/
inductive LimitFile (fs : FileSystem) (i : Inspector) : Path → Attribute (Option Int) → Prop
  | unified (h : i.isUnified fs = .ok true) :
      LimitFile fs i (i.unified.directory.join ⟨"memory.max"⟩) Attribute.memoryMax
  | controller {controllers : Controllers} {directory : Path} (h : i.isUnified fs = .ok false)
      (hc : i.controllers fs = .ok controllers) (hd : controllers["memory"]? = some directory) :
      LimitFile fs i (directory.join ⟨"memory.limit_in_bytes"⟩) Attribute.limitInBytes

/-- What the files say about the memory limit of a process: a number of bytes, nothing, or that it
cannot be told. -/
inductive MemoryLimit (fs : FileSystem) (i : Inspector) : Except Error (Option Int) → Prop
  | noTable {e : Error} (h : i.isUnified fs = .error e) : MemoryLimit fs i (.error e)
  | noControllers {e : Error} (h : i.isUnified fs = .ok false) (hc : i.controllers fs = .error e) :
      MemoryLimit fs i (.error e)
  | noController {controllers : Controllers} (h : i.isUnified fs = .ok false)
      (hc : i.controllers fs = .ok controllers) (hd : controllers["memory"]? = none) :
      MemoryLimit fs i (.ok none)
  | file {path : Path} {a : Attribute (Option Int)} {r : Except Error (Option (Option Int))}
      (hf : LimitFile fs i path a) (hr : Attribute.Reading fs path a r) :
      MemoryLimit fs i (r.map Option.join)

theorem LimitFile.neverBlank {path : Path} {a : Attribute (Option Int)}
    (h : LimitFile fs i path a) : a.NeverBlank := by
  cases h with
  | unified => exact Attribute.neverBlank_memoryMax
  | controller => exact Attribute.neverBlank_limitInBytes

theorem exists_memoryLimit (fs : FileSystem) (i : Inspector) : ∃ r, MemoryLimit fs i r := by
  cases hu : i.isUnified fs with
  | error e => exact ⟨_, .noTable hu⟩
  | ok found =>
    cases found with
    | true =>
      obtain ⟨r, hr⟩ := Attribute.exists_reading fs _ Attribute.memoryMax
      exact ⟨_, .file (.unified hu) hr⟩
    | false =>
      cases hc : i.controllers fs with
      | error e => exact ⟨_, .noControllers hu hc⟩
      | ok controllers =>
        cases hd : controllers["memory"]? with
        | none => exact ⟨_, .noController hu hc hd⟩
        | some directory =>
          obtain ⟨r, hr⟩ := Attribute.exists_reading fs _ Attribute.limitInBytes
          exact ⟨_, .file (.controller hu hc hd) hr⟩

theorem MemoryLimit.ask_eq {r : Except Error (Option Int)} (h : MemoryLimit fs i r) :
    (i.ask fs (Unified.memoryLimit fs) (Controllers.memoryLimit fs) >>= id) = r := by
  cases h with
  | noTable h => rw [ask_eq_error_iff.mpr (.inl h), error_bind]
  | noControllers h hc => rw [ask_eq_error_iff.mpr (.inr ⟨h, hc⟩), error_bind]
  | @noController controllers h hc hd =>
    have hl : Controllers.memoryLimit fs controllers = .ok none := by
      simp [Controllers.memoryLimit, Controllers.memory, hd]
    rw [ask_eq_ok_iff.mpr (.inr ⟨h, controllers, hc, hl⟩), ok_bind, id]
  | file hf hr =>
    have hread := hr.readAt_eq hf.neverBlank
    cases hf with
    | unified h =>
      rw [ask_eq_ok_iff.mpr (.inl ⟨h, rfl⟩), ok_bind, id, Unified.memoryLimit, Attribute.readIn,
        hread]
    | @controller controllers directory h hc hd =>
      rw [ask_eq_ok_iff.mpr (.inr ⟨h, controllers, hc, rfl⟩), ok_bind, id]
      simp only [Controllers.memoryLimit, Controllers.memory, hd, Attribute.readIn, hread]

/-- The files say exactly one thing about the memory limit. Where they give a number, it is the
quota; where they cannot tell, the quota fails in the same way; and only where there is no limit
does the summary of the memory of the machine matter. The unified hierarchy has one word for no
limit and takes any other value for a number. A hierarchy of controllers takes positive signed words
for limits, but for those that are reported where no limit is set, and the other words for no
limit. -/
theorem memoryQuota_tristate (fs : FileSystem) (i : Inspector) :
    ∃ limit, MemoryLimit fs i limit ∧ (∀ other, MemoryLimit fs i other → other = limit) ∧
      (limit = .ok none → i.memoryQuota fs = MemoryInfo.totalMemory fs i.memory) ∧
      (∀ n, limit = .ok (some n) → i.memoryQuota fs = .ok n) ∧
      (∀ e, limit = .error e → i.memoryQuota fs = .error e) ∧
      (limit ≠ .ok none → ∀ path,
        ({ i with memory := path } : Inspector).memoryQuota fs = i.memoryQuota fs) ∧
      (∀ value, Attribute.memoryMax.parse value = .ok none ↔ value = "max") ∧
      (∀ value n, Attribute.memoryMax.parse value = .ok (some n) ↔
        value ≠ "max" ∧ Text.readInt64 value = .ok n) ∧
      (∀ value, Attribute.limitInBytes.parse value = .ok none ↔ ∃ z, Text.Numeral value z ∧
        (-2 ^ 63 ≤ z ∧ z ≤ 0 ∨ Attribute.IsUnlimited z ∨ 2 ^ 63 ≤ z ∧ z < 2 ^ 64)) ∧
      (∀ value n, Attribute.limitInBytes.parse value = .ok (some n) ↔
        Text.Numeral value n ∧ 0 < n ∧ n ≤ 2 ^ 63 - 1 ∧ ¬ Attribute.IsUnlimited n) := by
  obtain ⟨limit, hl⟩ := exists_memoryLimit fs i
  have hq : i.memoryQuota fs = orElse limit (MemoryInfo.totalMemory fs i.memory) := by
    rw [memoryQuota, hl.ask_eq]
  have hp : ∀ path, ({ i with memory := path } : Inspector).memoryQuota fs =
      orElse limit (MemoryInfo.totalMemory fs path) := by
    intro path
    rw [← hl.ask_eq]
    rfl
  refine ⟨limit, hl, fun other ho => ho.ask_eq.symm.trans hl.ask_eq, ?_, ?_, ?_, ?_,
    fun _ => Attribute.memoryMax_parse_eq_none_iff,
    fun _ _ => Attribute.memoryMax_parse_eq_some_iff,
    fun _ => Attribute.limitInBytes_parse_eq_none_iff,
    fun _ _ => Attribute.limitInBytes_parse_eq_some_iff⟩
  · rintro rfl
    rw [hq, orElse_ok_none]
  · rintro n rfl
    rw [hq, orElse_ok_some]
  · rintro e rfl
    rw [hq, orElse_error]
  · intro hne path
    rw [hp, hq]
    rcases limit with e | _ | n
    · simp
    · exact absurd rfl hne
    · simp

end Inspector
end ControlGroups
