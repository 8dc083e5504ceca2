import ControlGroups.Proofs.Attribute.FirstLine
import ControlGroups.Proofs.Attribute.Reading
import ControlGroups.Proofs.Text.Integer

/-! The memory limit of a hierarchy of controllers over all integers. The number is read as a signed
word behind a minus sign and as an unsigned one elsewhere, and the two ranges meet: every integer is
a limit, no limit or out of range, and only one of these. -/
namespace ControlGroups

open Text (Numeral Natural)

variable {bs : Bytes} {s : String} {z : Int}

/-- A word between blanks on the first line is the value of that line. -/
theorem Content.firstValue_of_onFirstLine (hs : Text.Solid s) (h : OnFirstLine s bs) :
    FirstValue bs s := by
  have hr := Attribute.read_of_onFirstLine (⟨.ok⟩ : Attribute String) hs.ne_empty
    hs.newline_not_mem h
  obtain ⟨value, hv, he⟩ := bind_eq_ok_iff.mp hr
  rw [Text.trim_of_solid hs] at he
  cases he
  exact firstValue_eq_ok_iff.mp hv

namespace Attribute

/-- The integers that are reported where no limit is set. -/
def IsUnlimited (z : Int) : Prop := ∃ bytes ∈ unlimitedBytes, (bytes : Int) = z

/-- What becomes of an integer that a limit is written as. -/
inductive Verdict (s : String) (z : Int) : Except ContentError (Option Int) → Prop
  | limit (pos : 0 < z) (le : z ≤ 2 ^ 63 - 1) (limited : ¬ IsUnlimited z) :
      Verdict s z (.ok (some z))
  | unset (h : -2 ^ 63 ≤ z ∧ z ≤ 0 ∨ IsUnlimited z ∨ 2 ^ 63 ≤ z ∧ z < 2 ^ 64) :
      Verdict s z (.ok none)
  | tooSmall (lt : z < -2 ^ 63) : Verdict s z (.error (.invalidValue s 1 .tooSmall))
  | tooLarge (ge : 2 ^ 64 ≤ z) : Verdict s z (.error (.invalidValue s 1 .tooLarge))

theorem isUnlimited_iff : IsUnlimited z ↔ z = 9223372036854771712 ∨ z = 9223372036854710272 ∨
    z = 9223372036854775807 ∨ z = 18446744073709551615 := by
  simp [IsUnlimited, unlimitedBytes, eq_comm]

theorem isLimit_iff {n : Nat} :
    isLimit n = true ↔ 0 < (n : Int) ∧ (n : Int) ≤ 2 ^ 63 - 1 ∧ ¬ IsUnlimited n := by
  have hw : Text.maxInt64 = 2 ^ 63 - 1 := rfl
  rw [isUnlimited_iff, isLimit, Bool.and_eq_true, decide_eq_true_eq, hw]
  simp [unlimitedBytes]
  omega

/-- No integer falls under two of the rules. -/
theorem Verdict.unique {answer answer' : Except ContentError (Option Int)}
    (h : Verdict s z answer) (h' : Verdict s z answer') : answer' = answer := by
  cases h with
  | limit pos le limited =>
    rw [isUnlimited_iff] at limited
    cases h' with
    | limit => rfl
    | unset h => rw [isUnlimited_iff] at h; omega
    | tooSmall lt => omega
    | tooLarge ge => omega
  | unset h =>
    rw [isUnlimited_iff] at h
    cases h' with
    | limit pos le limited => rw [isUnlimited_iff] at limited; omega
    | unset => rfl
    | tooSmall lt => omega
    | tooLarge ge => omega
  | tooSmall lt =>
    cases h' with
    | limit pos => omega
    | unset h => rw [isUnlimited_iff] at h; omega
    | tooSmall => rfl
    | tooLarge ge => omega
  | tooLarge ge =>
    cases h' with
    | limit pos le => omega
    | unset h => rw [isUnlimited_iff] at h; omega
    | tooSmall lt => omega
    | tooLarge => rfl

/-- Behind a minus sign no integer is a limit, and the smallest ones are out of range. -/
theorem verdict_of_minus {ds : List Char} (hne : ds ≠ []) (hd : ∀ c ∈ ds, c.isDigit = true) :
    Verdict (String.ofList ('-' :: ds)) (-Nat.ofDigitChars 10 ds 0)
      (limitInBytes.parse (String.ofList ('-' :: ds))) := by
  have hp : limitInBytes.parse (String.ofList ('-' :: ds)) =
      (Content.int64 (String.ofList ('-' :: ds))).map fun _ => none := by
    simp [limitInBytes, parseLimitInBytes]
  rw [hp, Content.int64]
  by_cases hr : Nat.ofDigitChars 10 ds 0 ≤ 2 ^ 63
  · have hz : Text.IsInt64 (-Nat.ofDigitChars 10 ds 0) := by
      constructor <;> omega
    rw [Text.readInt64_of_numeral (.minus hne hd) hz]
    exact .unset (.inl ⟨by omega, by omega⟩)
  · have hw : Text.maxInt64 = 2 ^ 63 - 1 := rfl
    rw [Text.readInt64_minus_of_lt hd (by omega)]
    exact .tooSmall (by omega)

theorem verdict_of_natural {n : Nat} (h : Natural s n) (hm : '-' ∉ s.toList) :
    Verdict s n (limitInBytes.parse s) := by
  have hh : s.toList.head? ≠ some '-' := fun hh => hm (List.mem_of_mem_head? hh)
  have hp : limitInBytes.parse s =
      (Content.nat64 s).map fun bytes => if isLimit bytes then some (bytes : Int) else none := by
    simp only [limitInBytes, parseLimitInBytes, if_neg hh]
  have hw : Text.maxNat64 = 2 ^ 64 - 1 := rfl
  rw [hp, Content.nat64]
  rcases Nat.lt_or_ge Text.maxNat64 n with hn | hn
  · have hr : Text.readNat64 s = .error .tooLarge := Text.readNat_of_lt h hn
    rw [hr]
    exact .tooLarge (by omega)
  · have hr : Text.readNat64 s = .ok n := Text.readNat_eq_ok_iff.mpr ⟨h, hn⟩
    rw [hr, mapError_ok, Except.map]
    split
    · rename_i hl
      obtain ⟨pos, le, limited⟩ := isLimit_iff.mp hl
      exact .limit pos le limited
    · rename_i hl
      rw [isLimit_iff] at hl
      refine .unset ?_
      rw [isUnlimited_iff] at hl ⊢
      omega

/-- Every integer that is written as a numeral falls under a rule. -/
theorem verdict_of_numeral (h : Numeral s z) : Verdict s z (limitInBytes.parse s) := by
  rcases h.sign_cases with ⟨ds, rfl, hne, hd, rfl⟩ | ⟨n, rfl, hn, hm⟩
  · exact verdict_of_minus hne hd
  · exact verdict_of_natural hn hm

theorem exists_invalidValue_of_int64 (h : ∀ z, ¬ Numeral s z) :
    ∃ cause, Content.int64 s = .error (.invalidValue s 1 cause) := by
  cases hr : Text.readInt64 s with
  | ok z => exact absurd (Text.numeral_of_readInt64 hr) (h z)
  | error cause => exact ⟨cause, by rw [Content.int64, hr, mapError_error]⟩

theorem exists_invalidValue_of_nat64 (h : ∀ z, ¬ Numeral s z) :
    ∃ cause, Content.nat64 s = .error (.invalidValue s 1 cause) := by
  cases hr : Text.readNat64 s with
  | ok n => exact absurd (Text.readNat_eq_ok_iff.mp hr).1.numeral (h n)
  | error cause => exact ⟨cause, by rw [Content.nat64, hr, mapError_error]⟩

/-- A value that is no numeral is refused, with a minus sign in front or without. -/
theorem exists_invalidValue_of_limitInBytes (h : ∀ z, ¬ Numeral s z) :
    ∃ cause, limitInBytes.parse s = .error (.invalidValue s 1 cause) := by
  simp only [limitInBytes, parseLimitInBytes]
  split
  · obtain ⟨cause, hc⟩ := exists_invalidValue_of_int64 h
    exact ⟨cause, map_eq_error_iff.mpr hc⟩
  · obtain ⟨cause, hc⟩ := exists_invalidValue_of_nat64 h
    exact ⟨cause, map_eq_error_iff.mpr hc⟩

theorem limitInBytes_parse_eq_ok_iff {limit : Option Int} :
    limitInBytes.parse s = .ok limit ↔ ∃ z, Numeral s z ∧ Verdict s z (.ok limit) := by
  constructor
  · intro h
    by_cases hn : ∃ z, Numeral s z
    · obtain ⟨z, hz⟩ := hn
      exact ⟨z, hz, h ▸ verdict_of_numeral hz⟩
    · obtain ⟨cause, hc⟩ := exists_invalidValue_of_limitInBytes (not_exists.mp hn)
      cases h.symm.trans hc
  · rintro ⟨z, hz, hv⟩
    exact hv.unique (verdict_of_numeral hz)

theorem limitInBytes_parse_eq_some_iff {n : Int} : limitInBytes.parse s = .ok (some n) ↔
    Numeral s n ∧ 0 < n ∧ n ≤ 2 ^ 63 - 1 ∧ ¬ IsUnlimited n := by
  rw [limitInBytes_parse_eq_ok_iff]
  constructor
  · rintro ⟨z, hz, hv⟩
    cases hv with
    | limit pos le limited => exact ⟨hz, pos, le, limited⟩
  · rintro ⟨hz, pos, le, limited⟩
    exact ⟨n, hz, .limit pos le limited⟩

theorem limitInBytes_parse_eq_none_iff : limitInBytes.parse s = .ok none ↔ ∃ z, Numeral s z ∧
    (-2 ^ 63 ≤ z ∧ z ≤ 0 ∨ IsUnlimited z ∨ 2 ^ 63 ≤ z ∧ z < 2 ^ 64) := by
  rw [limitInBytes_parse_eq_ok_iff]
  constructor
  · rintro ⟨z, hz, hv⟩
    cases hv with
    | unset h => exact ⟨z, hz, h⟩
  · rintro ⟨z, hz, h⟩
    exact ⟨z, hz, .unset h⟩

theorem read_eq_noValue_iff {α : Type} {a : Attribute α} (ha : a.NeverBlank) :
    (a.read bs).1 = .error .noValue ↔ bs = [] := by
  constructor
  · intro h
    rcases Content.firstValue_cases bs with hb | hd | ⟨value, hv⟩
    · exact hb
    · rw [read_of_decode_none hd] at h
      cases h
    · rw [read_of_firstValue hv] at h
      exact absurd h (ha value)
  · rintro rfl
    rfl

/-- A number of bytes that is read is the integer on the first line, and it is positive. -/
theorem numeral_of_limitInBytes {n : Int} (h : (limitInBytes.read bs).1 = .ok (some n)) :
    0 < n ∧ n ≤ 2 ^ 63 - 1 ∧ ∃ s, Content.FirstValue bs s ∧ Numeral s n := by
  rcases Content.firstValue_cases bs with rfl | hd | ⟨s, hv⟩
  · cases h
  · rw [read_of_decode_none hd] at h
    cases h
  · rw [read_of_firstValue hv] at h
    obtain ⟨hz, pos, le, -⟩ := limitInBytes_parse_eq_some_iff.mp h
    exact ⟨pos, le, s, hv, hz⟩

/-- A limit is read off the first line, and of a numeral there nothing but its integer matters.
Positive integers that fit a signed word are limits, those apart that are reported where no limit is
set, of which there are four; other integers down to the smallest signed word and up to the largest
unsigned one stand for no limit, and all others are refused. So is a first line that holds no
numeral, and only a file without a byte counts as empty. -/
theorem limitInBytes_over_integers :
    (∀ bs s z, Numeral s z → Content.OnFirstLine s bs → Content.FirstValue bs s) ∧
    (∀ bs s, Content.FirstValue bs s →
      (∀ z, Numeral s z → ∀ answer, (limitInBytes.read bs).1 = answer ↔ Verdict s z answer) ∧
      ((∀ z, ¬ Numeral s z) →
        ∃ cause, (limitInBytes.read bs).1 = .error (.invalidValue s 1 cause))) ∧
    (∀ z, IsUnlimited z ↔ z = 9223372036854771712 ∨ z = 9223372036854710272 ∨
      z = 9223372036854775807 ∨ z = 18446744073709551615) ∧
    (∀ bs, (limitInBytes.read bs).1 = .error .noValue ↔ bs = []) ∧
    ∀ bs n, (limitInBytes.read bs).1 = .ok (some n) →
      0 < n ∧ n ≤ 2 ^ 63 - 1 ∧ ∃ s, Content.FirstValue bs s ∧ Numeral s n := by
  refine ⟨fun bs s z hs h => Content.firstValue_of_onFirstLine hs.solid h, ?_,
    fun z => isUnlimited_iff, fun bs => read_eq_noValue_iff neverBlank_limitInBytes,
    fun bs n => numeral_of_limitInBytes⟩
  intro bs s hv
  rw [read_of_firstValue hv]
  refine ⟨fun z hz answer => ?_, exists_invalidValue_of_limitInBytes⟩
  constructor
  · rintro rfl
    exact verdict_of_numeral hz
  · intro h
    exact h.unique (verdict_of_numeral hz)

/-- The smallest signed word is no limit, the largest limit is one below the largest signed word,
the first number past the unsigned words is refused, and so is a sign alone. -/
theorem limitInBytes_over_integers_bounds :
    (limitInBytes.read (Text.encode "\t-09223372036854775808 \nrest")).1 = .ok none ∧
    (limitInBytes.read (Text.encode "+9223372036854775806")).1 =
      .ok (some 9223372036854775806) ∧
    (limitInBytes.read (Text.encode "18446744073709551616\n")).1 =
      .error (.invalidValue "18446744073709551616" 1 .tooLarge) ∧
    ∃ cause, (limitInBytes.read (Text.encode "-")).1 = .error (.invalidValue "-" 1 cause) := by
  obtain ⟨hline, hread, hunlimited, -⟩ := limitInBytes_over_integers
  have hsmall : Numeral "-09223372036854775808" (-9223372036854775808) :=
    .minus (by decide) (by simp)
  have hlarge : Numeral "+9223372036854775806" 9223372036854775806 := .plus (by decide) (by simp)
  have hpast : Numeral "18446744073709551616" 18446744073709551616 :=
    .unsigned (by decide) (by simp)
  have hsign : ∀ z, ¬ Numeral "-" z := by
    intro z hz
    rcases hz.sign_cases with ⟨ds, hs, hne, -⟩ | ⟨n, -, -, hm⟩
    · have hl : ['-'] = '-' :: ds := by
        rw [← String.toList_ofList (l := '-' :: ds), ← hs]
        rfl
      exact hne (List.cons.inj hl).2.symm
    · exact hm (by decide)
  have htab : Text.Blanks "\t" := List.all_eq_true.mp (by decide)
  have hspace : Text.Blanks " " := List.all_eq_true.mp (by decide)
  have hfirst := hline _ _ _ hsmall ⟨"\t", " ", htab, hspace, by decide, by decide,
    .inr ⟨Text.encode "rest", rfl⟩⟩
  have hvalue : Content.FirstValue (Text.encode "-") "-" := ⟨by decide, "-", by decide, by decide⟩
  refine ⟨?_, ?_, ?_, (hread _ _ hvalue).2 hsign⟩
  · exact ((hread _ _ hfirst).1 _ hsmall _).mpr (.unset (.inl ⟨by decide, by decide⟩))
  · have hv := hline _ _ _ hlarge (Content.onFirstLine_encode _)
    refine ((hread _ _ hv).1 _ hlarge _).mpr (.limit (by decide) (by decide) ?_)
    rw [hunlimited]
    decide
  · have hv := hline _ _ _ hpast (Content.onFirstLine_newline _ [])
    exact ((hread _ _ hv).1 _ hpast _).mpr (.tooLarge (by decide))

end Attribute
end ControlGroups
