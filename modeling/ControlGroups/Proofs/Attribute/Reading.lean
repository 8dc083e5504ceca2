import ControlGroups.Attribute.MemoryLimit
import ControlGroups.Proofs.Failure

/-! Every way in which reading an attribute file can end. The rules speak of what is found under
the path and of the bytes there, and exactly one of them applies. -/
namespace ControlGroups

/-- The value on the first line of some content that has one. -/
def Content.FirstValue (bs : Bytes) (value : String) : Prop :=
  bs ≠ [] ∧ ∃ line, Text.decode? (Text.cutLine bs).1 = some line ∧ Text.trim line = value

namespace Content

theorem firstValue_eq_ok_iff {bs : Bytes} {value : String} :
    (firstValue bs).1 = .ok value ↔ FirstValue bs value := by
  by_cases hb : bs = []
  · simp [hb, FirstValue]
  · cases hd : Text.decode? (Text.cutLine bs).1 with
    | none => simp [firstValue, lineText, FirstValue, hb, hd, Except.map]
    | some line => simp [firstValue, lineText, FirstValue, hb, hd, Except.map]

theorem firstValue_of_decode_none {bs : Bytes} (h : Text.decode? (Text.cutLine bs).1 = none) :
    (firstValue bs).1 = .error (.file .invalidUtf8) := by
  have hb : bs ≠ [] := by
    rintro rfl
    exact absurd h (by decide)
  simp [firstValue, lineText, hb, h, Except.map]

/-- Content is empty, or its first line is not UTF-8, or it has a value. -/
theorem firstValue_cases (bs : Bytes) :
    bs = [] ∨ Text.decode? (Text.cutLine bs).1 = none ∨ ∃ value, FirstValue bs value := by
  by_cases hb : bs = []
  · exact .inl hb
  · cases hd : Text.decode? (Text.cutLine bs).1 with
    | none => exact .inr (.inl rfl)
    | some line => exact .inr (.inr ⟨Text.trim line, hb, line, hd, rfl⟩)

theorem int64_ne_noValue (value : String) : int64 value ≠ .error .noValue := by
  intro h
  obtain ⟨cause, -, he⟩ := mapError_eq_error_iff.mp h
  cases he

theorem nat64_ne_noValue (value : String) : nat64 value ≠ .error .noValue := by
  intro h
  obtain ⟨cause, -, he⟩ := mapError_eq_error_iff.mp h
  cases he

end Content

/-- A file whose first line can be read, found under the normal spelling of a path, with the bytes
that can be read of it. -/
def FileSystem.HasFirstLine (fs : FileSystem) (path : Path) (bs : Bytes) : Prop :=
  ∃ node, fs.find path.clean = .ok node ∧ node.firstFault = none ∧ node.content = bs

namespace Attribute
variable {α : Type} {fs : FileSystem} {path : Path} {a : Attribute α}

/-- How reading the file of an attribute ends. A failure to read counts where it comes before the
first line is over. -/
inductive Reading (fs : FileSystem) (path : Path) (a : Attribute α) :
    Except Error (Option α) → Prop
  | absent (h : fs.find path.clean = .error .notFound) : Reading fs path a (.ok none)
  | unopened {e : FileError} (h : fs.find path.clean = .error e) (he : e ≠ .notFound) :
      Reading fs path a (.error (.fileOpen path.clean e))
  | unread {node : Node} {e : FileError} (h : fs.find path.clean = .ok node)
      (he : node.firstFault = some e) : Reading fs path a (.error (.content path.clean (.file e)))
  | empty (h : fs.HasFirstLine path []) : Reading fs path a (.error (.unexpectedEnd path.clean))
  | undecodable {bs : Bytes} (h : fs.HasFirstLine path bs)
      (hd : Text.decode? (Text.cutLine bs).1 = none) :
      Reading fs path a (.error (.content path.clean (.file .invalidUtf8)))
  | malformed {bs : Bytes} {value : String} {e : ContentError} (h : fs.HasFirstLine path bs)
      (hv : Content.FirstValue bs value) (he : a.parse value = .error e) :
      Reading fs path a (.error (.content path.clean e))
  | value {bs : Bytes} {value : String} {v : α} (h : fs.HasFirstLine path bs)
      (hv : Content.FirstValue bs value) (hp : a.parse value = .ok v) :
      Reading fs path a (.ok (some v))

/-- An attribute whose values are never taken for a file without any. -/
def NeverBlank (a : Attribute α) : Prop := ∀ value, a.parse value ≠ .error .noValue

theorem read_of_firstValue {bs : Bytes} {value : String} (h : Content.FirstValue bs value) :
    (a.read bs).1 = a.parse value := by
  rw [read, Content.firstValue_eq_ok_iff.mpr h]
  rfl

theorem read_of_decode_none {bs : Bytes} (h : Text.decode? (Text.cutLine bs).1 = none) :
    (a.read bs).1 = .error (.file .invalidUtf8) := by
  rw [read, Content.firstValue_of_decode_none h]
  rfl

theorem readAt_of_hasFirstLine {bs : Bytes} (h : fs.HasFirstLine path bs) :
    readAt fs path a = match (a.read bs).1 with
      | .ok value => .ok (some value)
      | .error .noValue => .error (.unexpectedEnd path.clean)
      | .error e => .error (.content path.clean e) := by
  obtain ⟨node, hf, hn, rfl⟩ := h
  have hr : a.readNode node = (a.read node.content).1 := by simp only [readNode, hn]
  cases hv : (a.read node.content).1 with
  | ok value => simp only [readAt, hf, hr, hv]
  | error e => cases e <;> simp only [readAt, hf, hr, hv]

theorem readAt_of_firstFault {node : Node} {e : FileError} (h : fs.find path.clean = .ok node)
    (he : node.firstFault = some e) :
    readAt fs path a = .error (.content path.clean (.file e)) := by
  simp only [readAt, h, readNode, he]

theorem Reading.readAt_eq {r : Except Error (Option α)} (ha : a.NeverBlank)
    (hr : Reading fs path a r) : readAt fs path a = r := by
  cases hr with
  | absent h => exact readAt_of_notFound a h
  | @unopened e h he => cases e <;> simp_all [readAt]
  | unread h he => exact readAt_of_firstFault h he
  | empty h => simp [readAt_of_hasFirstLine h]
  | undecodable h hd => simp [readAt_of_hasFirstLine h, read_of_decode_none hd]
  | @malformed bs value e h hv he =>
    have hn : e ≠ .noValue := fun hn => ha value (hn ▸ he)
    rw [readAt_of_hasFirstLine h, read_of_firstValue hv, he]
    cases e with
    | noValue => exact absurd rfl hn
    | _ => rfl
  | value h hv hp => rw [readAt_of_hasFirstLine h, read_of_firstValue hv, hp]

theorem exists_reading (fs : FileSystem) (path : Path) (a : Attribute α) :
    ∃ r, Reading fs path a r := by
  cases h : fs.find path.clean with
  | error e =>
    by_cases he : e = .notFound
    · exact ⟨_, .absent (he ▸ h)⟩
    · exact ⟨_, .unopened h he⟩
  | ok node =>
    cases hn : node.firstFault with
    | some e => exact ⟨_, .unread h hn⟩
    | none =>
      have hf : fs.HasFirstLine path node.content := ⟨node, h, hn, rfl⟩
      rcases Content.firstValue_cases node.content with hb | hd | ⟨value, hv⟩
      · exact ⟨_, .empty (hb ▸ hf)⟩
      · exact ⟨_, .undecodable hf hd⟩
      · cases hp : a.parse value with
        | error e => exact ⟨_, .malformed hf hv hp⟩
        | ok v => exact ⟨_, .value hf hv hp⟩

theorem reading_iff {r : Except Error (Option α)} (ha : a.NeverBlank) :
    Reading fs path a r ↔ readAt fs path a = r := by
  refine ⟨Reading.readAt_eq ha, ?_⟩
  rintro rfl
  obtain ⟨r, hr⟩ := exists_reading fs path a
  rwa [hr.readAt_eq ha]

/-- A value that is read is the one that some text is parsed as. -/
theorem Reading.exists_parse {v : α} (hr : Reading fs path a (.ok (some v))) :
    ∃ value, a.parse value = .ok v := by
  cases hr with
  | value h hv hp => exact ⟨_, hp⟩

theorem neverBlank_memoryMax : memoryMax.NeverBlank := by
  intro value h
  simp only [memoryMax, parseLimit] at h
  split at h
  · cases h
  · exact Content.int64_ne_noValue value (map_eq_error_iff.mp h)

theorem neverBlank_limitInBytes : limitInBytes.NeverBlank := by
  intro value h
  simp only [limitInBytes, parseLimitInBytes] at h
  split at h
  · exact Content.int64_ne_noValue value (map_eq_error_iff.mp h)
  · exact Content.nat64_ne_noValue value (map_eq_error_iff.mp h)

theorem neverBlank_cfsQuota : cfsQuota.NeverBlank :=
  fun value h => Content.int64_ne_noValue value (map_eq_error_iff.mp h)

theorem neverBlank_cfsPeriod : cfsPeriod.NeverBlank := Content.int64_ne_noValue

theorem neverBlank_cpuMax : cpuMax.NeverBlank := by
  intro value h
  rcases bind_eq_error_iff.mp h with hq | ⟨quota, -, h⟩
  · exact neverBlank_memoryMax _ hq
  · rcases bind_eq_error_iff.mp h with hp | ⟨period, -, h⟩
    · cases hw : (Text.words value)[1]? with
      | none => simp [hw, parsePeriod] at hp
      | some word =>
        rw [hw, parsePeriod] at hp
        exact Content.int64_ne_noValue word (map_eq_error_iff.mp hp)
    · cases h

end Attribute
end ControlGroups
