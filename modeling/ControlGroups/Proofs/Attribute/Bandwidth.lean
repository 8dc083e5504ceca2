import ControlGroups.Attribute.Bandwidth
import ControlGroups.Proofs.Attribute.FirstLine
import ControlGroups.Proofs.Text.Numeral

/-! What the files of a quota are parsed as. Numerals in range give their numbers, and no text
whatsoever gives a number that does not fit a signed word. -/
namespace ControlGroups

open Text (Numeral IsInt64 Solid Blanks)

/-- Two words with blanks between them, the second of which is a numeral. -/
def WordThenNumeral (first : String → Prop) (p : Int) (s : String) : Prop :=
  ∃ word blanks numeral, first word ∧ Blanks blanks ∧ blanks ≠ "" ∧ '\n' ∉ blanks.toList ∧
    Numeral numeral p ∧ s = word ++ blanks ++ numeral

variable {fs : FileSystem} {directory : Path} {name s : String} {q p : Int}

namespace Content

theorem int64_eq_ok_iff {n : Int} : int64 s = .ok n ↔ Text.readInt64 s = .ok n := mapError_eq_ok_iff

theorem int64_of_numeral (h : Numeral s q) (hq : IsInt64 q) : int64 s = .ok q :=
  int64_eq_ok_iff.mpr (Text.readInt64_of_numeral h hq)

end Content

namespace Attribute
variable {α : Type} {a : Attribute α} {value : α}

theorem readIn_of_holds_numeral (h : fs.Holds directory name (Numeral · q))
    (ht : ∀ s, Numeral s q → a.parse s = .ok value) :
    readIn fs directory name a = .ok (some value) := by
  apply readIn_of_holds h
  intro s hs
  have hw := hs.solid
  exact ⟨hw.ne_empty, hw.newline_not_mem, by rw [Text.trim_of_solid hw, ht s hs]⟩

theorem parseLimit_of_numeral (h : Numeral s q) (hq : IsInt64 q) : parseLimit s = .ok (some q) := by
  have hne : s ≠ unlimitedWord := by
    rintro rfl
    have hr : Text.readInt64 unlimitedWord = .error .invalidDigit := by decide
    cases hr.symm.trans (Text.readInt64_of_numeral h hq)
  rw [parseLimit, if_neg hne, Content.int64_of_numeral h hq]
  rfl

/-- Two words are read one after the other. -/
theorem parse_wordThenNumeral {first : String → Prop} {quota : Option Int} (hp : IsInt64 p)
    (hf : ∀ word, first word → Solid word ∧ parseLimit word = .ok quota)
    (h : WordThenNumeral first p s) :
    s ≠ "" ∧ '\n' ∉ s.toList ∧
      cpuMax.parse (Text.trim s) = .ok ⟨quota.map Int.toNat, p.toNat⟩ := by
  obtain ⟨word, blanks, numeral, hw, hb, hne, hn, hnum, rfl⟩ := h
  obtain ⟨hw, hl⟩ := hf word hw
  have hs := hnum.solid
  refine ⟨?_, ?_, ?_⟩
  · intro he
    have ht := congrArg String.toList he
    simp [hw.ne_empty] at ht
  · simp only [String.toList_append, List.mem_append, not_or]
    exact ⟨⟨hw.newline_not_mem, hn⟩, hs.newline_not_mem⟩
  · have hwords : Text.words (word ++ blanks ++ numeral) = [word, numeral] := by
      rw [Text.words_append hw hb hne, Text.words_of_solid hs]
    have hperiod : parsePeriod (some numeral) = .ok p.toNat := by
      rw [parsePeriod, Content.int64_of_numeral hnum hp]
      rfl
    rw [Text.trim_append_of_solid hw hs]
    simp only [cpuMax, parseCpuMax, hwords, List.headD_cons, hl, ok_bind]
    simp [hperiod]

theorem isInt64_of_parseLimit (h : parseLimit s = .ok (some q)) : IsInt64 q := by
  rw [parseLimit] at h
  split at h
  · cases h
  · obtain ⟨n, hn, hq⟩ := map_eq_ok_iff.mp h
    cases hq
    exact Text.isInt64_of_readInt64 (Content.int64_eq_ok_iff.mp hn)

theorem isInt64_of_parsePeriod {word : Option String} {n : Nat} (h : parsePeriod word = .ok n) :
    IsInt64 n := by
  cases word with
  | none =>
    cases h
    exact Text.isInt64_of_le (by decide)
  | some s =>
    obtain ⟨m, hm, rfl⟩ := map_eq_ok_iff.mp h
    exact (Text.isInt64_of_readInt64 (Content.int64_eq_ok_iff.mp hm)).toNat

/-- Whatever a file holds, both numbers that are read from it fit signed words. -/
theorem isInt64_of_parseCpuMax {max : CpuMax} (h : parseCpuMax s = .ok max) :
    (∀ quota : Nat, max.quota = some quota → IsInt64 quota) ∧ IsInt64 max.period := by
  obtain ⟨limit, hl, h⟩ := bind_eq_ok_iff.mp h
  obtain ⟨period, hp, h⟩ := bind_eq_ok_iff.mp h
  cases h
  refine ⟨fun quota hq => ?_, isInt64_of_parsePeriod hp⟩
  obtain ⟨q, rfl, rfl⟩ := Option.map_eq_some_iff.mp hq
  exact (isInt64_of_parseLimit hl).toNat

theorem isInt64_of_cfsQuota (h : cfsQuota.parse s = .ok (some q)) : IsInt64 q := by
  obtain ⟨n, hn, hq⟩ := map_eq_ok_iff.mp h
  split at hq
  · cases hq
    exact Text.isInt64_of_readInt64 (Content.int64_eq_ok_iff.mp hn)
  · cases hq

end Attribute
end ControlGroups
