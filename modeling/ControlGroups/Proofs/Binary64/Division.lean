import ControlGroups.Attribute.Bandwidth
import ControlGroups.Proofs.Binary64.Rounding

/-! The quotient of two positive words as a number of 64 bits. On the way from the words to the
quotient every number is positive and far from both ends of the format, so nothing is rounded to
zero and nothing overflows. -/
namespace ControlGroups.Binary64
open Float.Model
open Float.Model.UnpackedFloat

variable {m n : Nat} {a b c d : Int} {u v : UnpackedFloat}

theorem log2_mul (hm : m.log2 = width) (hn : n.log2 = width) :
    width + width ≤ (m * n).log2 ∧ (m * n).log2 ≤ width + width + 1 := by
  have hm0 : m ≠ 0 := (pos_of_width_le hm.ge).ne'
  have hn0 : n ≠ 0 := (pos_of_width_le hn.ge).ne'
  obtain ⟨hml, hmu⟩ := (Nat.log2_eq_iff hm0).mp hm
  obtain ⟨hnl, hnu⟩ := (Nat.log2_eq_iff hn0).mp hn
  constructor
  · rw [Nat.le_log2 (Nat.mul_ne_zero hm0 hn0), Nat.pow_add]
    exact Nat.mul_le_mul hml hnl
  · rw [← Nat.lt_succ_iff, Nat.log2_lt (Nat.mul_ne_zero hm0 hn0)]
    calc m * n < 2 ^ (width + 1) * 2 ^ (width + 1) := Nat.mul_lt_mul'' hmu hnu
      _ = 2 ^ (width + width + 1 + 1) := by rw [← Nat.pow_add]; congr 1

/-- Two mantissas differ by less than a factor of two. -/
theorem log2_div (hm : m.log2 = width) (hn : n.log2 = width) :
    width ≤ (m * 2 ^ (width + 1) / n).log2 ∧ (m * 2 ^ (width + 1) / n).log2 ≤ width + 1 := by
  have hm0 : m ≠ 0 := (pos_of_width_le hm.ge).ne'
  have hn0 : 0 < n := pos_of_width_le hn.ge
  obtain ⟨hml, hmu⟩ := (Nat.log2_eq_iff hm0).mp hm
  obtain ⟨hnl, hnu⟩ := (Nat.log2_eq_iff hn0.ne').mp hn
  have hl : 2 ^ width ≤ m * 2 ^ (width + 1) / n := by
    rw [Nat.le_div_iff_mul_le hn0]
    exact Nat.mul_le_mul hml hnu.le
  have hu : m * 2 ^ (width + 1) / n < 2 ^ (width + 2) := by
    rw [Nat.div_lt_iff_lt_mul hn0]
    calc m * 2 ^ (width + 1) < 2 ^ (width + 1) * 2 ^ (width + 1) :=
          Nat.mul_lt_mul_of_pos_right hmu (Nat.pow_pos Nat.two_pos)
      _ = 2 ^ (width + 2) * 2 ^ width := by rw [← Nat.pow_add, ← Nat.pow_add]; congr 1
      _ ≤ 2 ^ (width + 2) * n := Nat.mul_le_mul_left _ hnl
  have h0 : m * 2 ^ (width + 1) / n ≠ 0 := (Nat.lt_of_lt_of_le (Nat.pow_pos Nat.two_pos) hl).ne'
  exact ⟨(Nat.le_log2 h0).mpr hl, Nat.le_of_lt_succ ((Nat.log2_lt h0).mpr hu)⟩

theorem normal_mul (hu : Normal a b u) (hv : Normal c d v) (hl : minExponent ≤ a + c) :
    Normal (a + c) (b + d + 54) (UnpackedFloat.mul Format.binary64 u v) := by
  obtain ⟨m, e, hm, rfl, hmw, hea, heb⟩ := hu
  obtain ⟨n, x, hn, rfl, hnw, hxc, hxd⟩ := hv
  obtain ⟨hpl, hpu⟩ := log2_mul hmw hnw
  have hw : width ≤ (m * n).log2 := (Nat.le_add_right _ _).trans hpl
  have hx : minExponent ≤ e + x := by omega
  apply (normal_roundWithAccuracy hw hx .exact).mono
  · omega
  · simp only [width] at hpu ⊢
    omega

/-- So many bits are added to the one mantissa that the quotient has the full width. -/
theorem divCore_eq (hm : m.log2 = width) (hn : n.log2 = width)
    (hl : minExponent ≤ a - c - 53) : divCore Format.binary64 m a n c =
      (m * 2 ^ (width + 1) / n, a - c - 53,
        accuracyOfFraction (m * 2 ^ (width + 1) % n) n) := by
  have ht : Format.binary64.targetExponent (totalExponent m a - totalExponent n c) =
      a - c - 53 := by
    simp only [Format.targetExponent, totalExponent, Format.mantissaBits, Format.minExponent, hm, hn]
    simp only [minExponent] at hl
    omega
  have he : min (a - c) (a - c - 53) = a - c - 53 := by omega
  have hs : (a - c - (a - c - 53)).toNat = width + 1 := by
    simp only [width]
    omega
  simp only [divCore, ht, he, hs, Nat.shiftLeft_eq]

theorem normal_div (hu : Normal a b u) (hv : Normal c d v) (hl : minExponent ≤ a - d - 53) :
    Normal (a - d - 53) (b - c - 51) (UnpackedFloat.div Format.binary64 u v) := by
  obtain ⟨m, e, hm, rfl, hmw, hea, heb⟩ := hu
  obtain ⟨n, x, hn, rfl, hnw, hxc, hxd⟩ := hv
  obtain ⟨hql, hqu⟩ := log2_div hmw hnw
  have hx : minExponent ≤ e - x - 53 := by omega
  rw [UnpackedFloat.div, divCore_eq hmw hnw hx]
  apply (normal_roundWithAccuracy hql hx _).mono
  · omega
  · simp only [width] at hqu ⊢
    omega

section Floats
variable {x y : Float}

theorem normal_mul_float (hx : Normal a b x.toModel.unpack) (hy : Normal c d y.toModel.unpack)
    (hl : minExponent ≤ a + c) (hu : b + d + 54 ≤ maxExponent) :
    Normal (a + c) (b + d + 54) (x * y).toModel.unpack := by
  have h := normal_mul hx hy hl
  have hp : (x * y).toModel.unpack = UnpackedFloat.mul Format.binary64 x.toModel.unpack
      y.toModel.unpack := unpack_pack (h.mono hl hu)
  rwa [hp]

theorem normal_div_float (hx : Normal a b x.toModel.unpack) (hy : Normal c d y.toModel.unpack)
    (hl : minExponent ≤ a - d - 53) (hu : b - c - 51 ≤ maxExponent) :
    Normal (a - d - 53) (b - c - 51) (x / y).toModel.unpack := by
  have h := normal_div hx hy hl
  have hp : (x / y).toModel.unpack = UnpackedFloat.div Format.binary64 x.toModel.unpack
      y.toModel.unpack := unpack_pack (h.mono hl hu)
  rwa [hp]

/-- A number with a positive mantissa is above zero, and it is a number. -/
theorem pos_of_normal (h : Normal a b x.toModel.unpack) :
    0 < x ∧ x.isInf = false ∧ x.isNaN = false := by
  obtain ⟨m, e, hm, hu, -⟩ := h
  have hz : (0 : Float).toModel.unpack = .zero .positive := rfl
  have hl : (0 : Float).toModel.unpack.lt x.toModel.unpack = true := by
    rw [hz, hu]
    rfl
  have hi : x.toModel.unpack.isInf = false := by
    rw [hu]
    rfl
  have hn : x.toModel.unpack.isNaN = false := by
    rw [hu]
    rfl
  have hp : Float.lt 0 x = true := by
    simp only [Float.lt, decide_eq_true_eq]
    exact hl
  exact ⟨hp, hi, hn⟩

end Floats

section Words

/-- The largest word, and the exponents that numbers up to it get. -/
theorem log2_le_of_word (hn : n ≠ 0) (h : n ≤ Text.maxNat64) : n.log2 ≤ 63 := by
  have hl : n.log2 < 64 := (Nat.log2_lt hn).mpr (Nat.lt_succ_of_le h)
  exact Nat.le_of_lt_succ hl

/-- A small number gets the bits that it lacks, and none of a large one is lost before it is
rounded. -/
theorem normal_round (hn : n ≠ 0) (h : n ≤ Text.maxNat64) :
    Normal (-52) 13 (UnpackedFloat.round Format.binary64 .positive n 0) := by
  have hw := log2_le_of_word hn h
  have ht : Format.binary64.targetExponent (totalExponent n 0) = (n.log2 : Int) - 52 := by
    simp only [Format.targetExponent, totalExponent, Format.mantissaBits, Format.minExponent]
    omega
  have hs : ((0 : Int) - ((n.log2 : Int) - 52)).toNat = 52 - n.log2 := by omega
  have hm : (n * 2 ^ (52 - n.log2)).log2 = n.log2 + (52 - n.log2) := log2_mul_two_pow hn _
  have hl : width ≤ (n * 2 ^ (52 - n.log2)).log2 := by
    simp only [width]
    omega
  have hx : minExponent ≤ (0 : Int) - (52 - n.log2 : Nat) := by
    simp only [minExponent]
    omega
  have hr := normal_roundWithAccuracy hl hx .exact
  simp only [UnpackedFloat.round, decreaseExponent, ht, hs, Nat.shiftLeft_eq]
  apply hr.mono
  · omega
  · simp only [width] at hm ⊢
    omega

theorem normal_ofUInt64 (hn : n ≠ 0) (h : n ≤ Text.maxNat64) :
    Normal (-52) 13 (Float.Model.ofUInt64 n.toUInt64).unpack := by
  have hu : UnpackedFloat.ofUInt64 Format.binary64 n.toUInt64 =
      UnpackedFloat.round Format.binary64 .positive n 0 := by
    have ht : n.toUInt64.toNat = n := Nat.mod_eq_of_lt (Nat.lt_succ_of_le h)
    have hc : compare (n : Int) 0 = .gt := Int.compare_eq_gt.mpr (by omega)
    rw [UnpackedFloat.ofUInt64, UnpackedFloat.ofNat, UnpackedFloat.ofInt, UnpackedFloat.normalize,
      ht, hc]
    rfl
  have hr := normal_round hn h
  rw [Float.Model.ofUInt64, hu, unpack_pack (hr.mono (by decide) (by decide))]
  exact hr

theorem normal_one : Normal (-52) (-52) (Float.ofBits 0x3FF0000000000000).toModel.unpack := by
  have hu : UnpackedFloat.unpack Format.binary64 0x3FF0000000000000 =
      .finite .positive (2 ^ 52) (-52) (by decide) := rfl
  have hn : Normal (-52) (-52) (.finite .positive (2 ^ 52) (-52) (by decide)) :=
    ⟨2 ^ 52, -52, by decide, rfl, by decide, by decide, by decide⟩
  have hb : (Float.ofBits 0x3FF0000000000000).toModel = Float.Model.pack
      (.finite .positive (2 ^ 52) (-52) (by decide)) := congrArg Float.Model.pack hu
  rw [hb, unpack_pack (hn.mono (by decide) (by decide))]
  exact hn

theorem normal_ofNat_of_lt (hn : n ≠ 0) (h : n < 2 ^ 53) :
    Normal (-104) 15 (Float.ofNat n).toModel.unpack := by
  have hf : Float.ofNat n = n.toUInt64.toFloat * Float.ofBits 0x3FF0000000000000 :=
    dif_pos (show n < 2 ^ 53 ∧ 0 ≤ 22 from ⟨h, by decide⟩)
  have hw : n ≤ Text.maxNat64 := by
    simp only [Text.maxNat64]
    omega
  rw [hf]
  exact normal_mul_float (normal_ofUInt64 hn hw) normal_one (by decide) (by decide)

theorem ofScientific_eq_round (hn : n ≠ 0) : UnpackedFloat.ofScientific Format.binary64 n 0 =
    roundWithAccuracy Format.binary64 .positive (n * 2 ^ 53) (-53) .exact := by
  have hs : ¬ (0 : Int) < -(2 ^ Format.binary64.exponentBits + n.log2) := by
    have hp : (0 : Int) < 2 ^ Format.binary64.exponentBits := by decide
    omega
  have hten : 10 ^ Int.toNat 0 = 1 := rfl
  rw [UnpackedFloat.ofScientific, dif_neg hn, if_neg (by decide), if_neg hs, if_pos (by decide)]
  simp only [UnpackedFloat.mul, Nat.shiftLeft_eq, Format.mantissaBits, hten, Nat.mul_one]
  rfl

theorem normal_ofScientific (hn : n ≠ 0) (h : n ≤ Text.maxNat64) :
    Normal (-104) 15 (UnpackedFloat.ofScientific Format.binary64 n 0) := by
  have hw := log2_le_of_word hn h
  have hd : (n * 2 ^ 53).log2 = n.log2 + 53 := log2_mul_two_pow hn 53
  have hl : width ≤ (n * 2 ^ 53).log2 := by
    simp only [width]
    omega
  rw [ofScientific_eq_round hn]
  apply (normal_roundWithAccuracy hl (show minExponent ≤ -53 by decide) .exact).mono (by decide)
  simp only [width]
  omega

theorem normal_ofNat_of_le (hn : 2 ^ 53 ≤ n) (h : n ≤ Text.maxNat64) :
    Normal (-104) 15 (Float.ofNat n).toModel.unpack := by
  have hf : Float.ofNat n = Float.ofModel (Float.Model.ofScientific n 0) :=
    dif_neg (show ¬ (n < 2 ^ 53 ∧ 0 ≤ 22) by omega)
  have hs : Normal (-104) 15 (UnpackedFloat.ofScientific Format.binary64 n 0) :=
    normal_ofScientific (by omega) h
  have hp : (Float.ofNat n).toModel.unpack = UnpackedFloat.ofScientific Format.binary64 n 0 := by
    rw [hf]
    exact unpack_pack (hs.mono (by decide) (by decide))
  rwa [hp]

theorem normal_ofNat (hn : n ≠ 0) (h : n ≤ Text.maxNat64) :
    Normal (-104) 15 (Float.ofNat n).toModel.unpack := by
  rcases Nat.lt_or_ge n (2 ^ 53) with hl | hl
  · exact normal_ofNat_of_lt hn hl
  · exact normal_ofNat_of_le hl h

end Words

end ControlGroups.Binary64

namespace ControlGroups

/-- A share of two words is a number of processors above zero. -/
theorem Cores.toFloat_pos (cores : Cores) (hq : cores.quota ≤ Text.maxNat64)
    (hp : cores.period ≤ Text.maxNat64) :
    0 < cores.toFloat ∧ cores.toFloat.isInf = false ∧ cores.toFloat.isNaN = false :=
  Binary64.pos_of_normal (Binary64.normal_div_float
    (Binary64.normal_ofNat cores.quota_pos.ne' hq) (Binary64.normal_ofNat cores.period_pos.ne' hp)
    (by decide) (by decide))

end ControlGroups
