import Mathlib

/-! Rounding a positive number with enough bits to the format of 64 bits. The result has all the
bits that the format has for a mantissa, and its exponent stays near the one before. -/
namespace ControlGroups.Binary64
open Float.Model
open Float.Model.UnpackedFloat

variable {m k : Nat} {e lo hi : Int} {u : UnpackedFloat}

/-- The number of bits of a mantissa behind the first one. -/
def width : Nat := 52

/-- The least exponent of the format. -/
def minExponent : Int := -1074

/-- The largest exponent of the format. -/
def maxExponent : Int := 971

/-- A positive number with all bits of a mantissa and an exponent between two others. -/
def Normal (lo hi : Int) (u : UnpackedFloat) : Prop :=
  ∃ (m : Nat) (e : Int) (h : 0 < m), u = .finite .positive m e h ∧ m.log2 = width ∧ lo ≤ e ∧ e ≤ hi

theorem Normal.mono {lo' hi' : Int} (h : Normal lo hi u) (hlo : lo' ≤ lo) (hhi : hi ≤ hi') :
    Normal lo' hi' u := by
  obtain ⟨m, e, hm, hu, hw, hl, hh⟩ := h
  exact ⟨m, e, hm, hu, hw, hlo.trans hl, hh.trans hhi⟩

theorem log2_div_two_pow (m k : Nat) : (m / 2 ^ k).log2 = m.log2 - k := by
  rw [Nat.log2_eq_log_two, Nat.log2_eq_log_two, Nat.log_div_base_pow]

theorem log2_mul_two_pow (h : m ≠ 0) (k : Nat) : (m * 2 ^ k).log2 = m.log2 + k := by
  induction k with
  | zero => simp
  | succ k ih =>
    have hk : m * 2 ^ k ≠ 0 := Nat.mul_ne_zero h (Nat.pow_pos Nat.two_pos).ne'
    rw [Nat.pow_succ, ← Nat.mul_assoc, Nat.mul_comm _ 2, Nat.log2_two_mul hk, ih]
    rfl

theorem pos_of_width_le (h : width ≤ m.log2) : 0 < m := by
  apply Nat.pos_of_ne_zero
  rintro rfl
  rw [Nat.log2_zero] at h
  exact absurd h (by decide)

section Shifting

theorem mantissa_shiftRight (em : ExtendedMantissa) (k : Nat) :
    (em >>> k).mantissa = em.mantissa / 2 ^ k := by
  induction k with
  | zero => exact (Nat.div_one _).symm
  | succ k ih =>
    have hs : (em >>> (k + 1)).mantissa = (em >>> k).mantissa / 2 := rfl
    rw [hs, ih, Nat.div_div_eq_div_mul, Nat.pow_succ]

theorem mantissa_ofMantissaAndAccuracy (m : Nat) (a : Accuracy) :
    (ExtendedMantissa.ofMantissaAndAccuracy m a).mantissa = m := by
  rcases a with _ | _ | _ | _ <;> rfl

/-- Rounding adds one at most. -/
theorem roundedMantissa_cases (em : ExtendedMantissa) :
    em.roundedMantissa = em.mantissa ∨ em.roundedMantissa = em.mantissa + 1 := by
  obtain ⟨m, round, sticky⟩ := em
  cases round <;> cases sticky <;>
    simp [ExtendedMantissa.roundedMantissa, ExtendedMantissa.accuracy, Accuracy.roundToNearestEven]
  omega

/-- The bits beyond the width are shifted out, and the exponent grows by their number. -/
theorem shiftToTargetExponent_of_width_le (h : width ≤ m.log2) (he : minExponent ≤ e)
    (a : Accuracy) :
    (shiftToTargetExponent Format.binary64 m e a).1.mantissa = m / 2 ^ (m.log2 - width) ∧
      (shiftToTargetExponent Format.binary64 m e a).2 = e + (m.log2 - width : Nat) := by
  have ht : Format.binary64.targetExponent (totalExponent m e) = e + (m.log2 - width : Nat) := by
    simp only [Format.targetExponent, totalExponent, Format.mantissaBits, Format.minExponent]
    simp only [width, minExponent] at h he ⊢
    omega
  have hs : (e + (m.log2 - width : Nat) - e).toNat = m.log2 - width := by omega
  simp only [shiftToTargetExponent, shiftToExponent, ht, hs, mantissa_shiftRight,
    mantissa_ofMantissaAndAccuracy, and_self]

/-- A mantissa of full width has at most one bit more when it was rounded. -/
theorem log2_succ_of_log2_eq (h : m.log2 = k) (hm : m ≠ 0) :
    (m + 1).log2 = k ∨ (m + 1).log2 = k + 1 := by
  obtain ⟨hl, hu⟩ := (Nat.log2_eq_iff hm).mp h
  rcases Nat.lt_or_eq_of_le (Nat.succ_le_of_lt hu) with hlt | heq
  · exact .inl ((Nat.log2_eq_iff (Nat.succ_ne_zero m)).mpr ⟨by omega, hlt⟩)
  · refine .inr ?_
    rw [← Nat.succ_eq_add_one, heq, Nat.log2_two_pow]

/-- A rounded number has the full width. Its exponent grows by the number of bits that were shifted
out, and by one more where rounding has made a further bit. -/
theorem normal_roundWithAccuracy (h : width ≤ m.log2) (he : minExponent ≤ e) (a : Accuracy) :
    Normal e (e + (m.log2 - width : Nat) + 1)
      (roundWithAccuracy Format.binary64 .positive m e a) := by
  obtain ⟨hm, hx⟩ := shiftToTargetExponent_of_width_le h he a
  generalize hf : shiftToTargetExponent Format.binary64 m e a = first at hm hx
  obtain ⟨em, x⟩ := first
  have hq : em.mantissa.log2 = width := by
    rw [hm, log2_div_two_pow]
    omega
  have hr : em.roundedMantissa.log2 = width ∨ em.roundedMantissa.log2 = width + 1 := by
    rcases roundedMantissa_cases em with hr | hr
    · exact .inl (hr ▸ hq)
    · rw [hr]
      exact log2_succ_of_log2_eq hq (pos_of_width_le hq.ge).ne'
  have hw : width ≤ em.roundedMantissa.log2 := by omega
  have hxe : minExponent ≤ x := by omega
  obtain ⟨hm', hx'⟩ := shiftToTargetExponent_of_width_le hw hxe .exact
  generalize hf' : shiftToTargetExponent Format.binary64 em.roundedMantissa x .exact = last
    at hm' hx'
  obtain ⟨em', x'⟩ := last
  have hq' : em'.mantissa.log2 = width := by
    rw [hm', log2_div_two_pow]
    omega
  have hp : 0 < em'.mantissa := pos_of_width_le hq'.ge
  refine ⟨em'.mantissa, x', hp, ?_, hq', by omega, by omega⟩
  simp only [roundWithAccuracy, hf, hf', dif_neg hp.ne']

end Shifting

section Packing

theorem unpackSign_packComponents (spec : Format) (s : Sign) (x : BitVec spec.exponentBits)
    (b : BitVec spec.mantissaBitsWithoutImplicit) :
    unpackSign (packComponents spec s x b) = s.toBitVec := by
  apply BitVec.eq_of_getLsbD_eq
  intro i hi
  obtain rfl : i = 0 := by omega
  simp [unpackSign, packComponents, BitVec.getLsbD_append, BitVec.getElem_append]

/-- The leading bit of a mantissa is not stored and comes back when it is read. -/
theorem toNat_one_append (h : m.log2 = width) : (1#1 ++ BitVec.ofNat 52 m).toNat = m := by
  have hm : m ≠ 0 := (pos_of_width_le h.ge).ne'
  obtain ⟨hl, hu⟩ := (Nat.log2_eq_iff hm).mp h
  simp only [width] at hl hu
  have h1 : (1#1).toNat = 1 := rfl
  have hb : (BitVec.ofNat 52 m).toNat = m % 2 ^ 52 := BitVec.toNat_ofNat m 52
  rw [BitVec.toNat_append, ← Nat.shiftLeft_add_eq_or_of_lt (BitVec.isLt _), hb, h1,
    Nat.shiftLeft_eq]
  omega

/-- The distance from an exponent to the bits that are stored for it. -/
def bias : Int := 1075

theorem pack_finite {x : Nat} (h : m.log2 = width) (hm : 0 < m) (hx : (x : Int) = e + bias)
    (hu : x < 2047) : UnpackedFloat.pack Format.binary64 (.finite .positive m e hm) =
      packComponents Format.binary64 .positive (BitVec.ofNat 11 x) (BitVec.ofNat 52 m) := by
  have hb : (e + Format.binary64.exponentBias + Format.binary64.mantissaBitsWithoutImplicit).toNat =
      x := by
    simp only [Format.exponentBias, bias] at hx ⊢
    omega
  rw [UnpackedFloat.pack]
  simp only [hb, h, width, Format.mantissaBits]
  rw [if_neg (by omega), if_true]

theorem unpack_packComponents {x : Nat} (h : m.log2 = width) (hm : 0 < m) (hl : 0 < x)
    (hu : x < 2047) : UnpackedFloat.unpack Format.binary64
        (packComponents Format.binary64 .positive (BitVec.ofNat 11 x) (BitVec.ofNat 52 m)) =
      .finite .positive m (x - bias) hm := by
  have hn : (BitVec.ofNat 11 x).toNat = x := by
    rw [BitVec.toNat_ofNat]
    omega
  have hz : BitVec.ofNat 11 x ≠ 0#11 := by
    intro hc
    have hx : x = 0 := hn.symm.trans (congrArg BitVec.toNat hc)
    omega
  have ho : BitVec.ofNat 11 x ≠ -1#11 := by
    intro hc
    have hx : x = 2047 := hn.symm.trans (congrArg BitVec.toNat hc)
    omega
  have hb : (x : Int) - (Format.binary64.exponentBias + (52 : Nat)) = x - bias := rfl
  have hs : Sign.ofBitVec Sign.positive.toBitVec = .positive := rfl
  rw [UnpackedFloat.unpack]
  simp only [unpackMantissa_packComponents, unpackExponent_packComponents,
    unpackSign_packComponents, ho, hz, if_false, toNat_one_append h, hn, hb, hs]

/-- A number of the format is read back as it was packed. -/
theorem unpack_pack (h : Normal minExponent maxExponent u) : (Float.Model.pack u).unpack = u := by
  obtain ⟨m, e, hm, rfl, hw, hlo, hhi⟩ := h
  obtain ⟨x, hx⟩ : ∃ x : Nat, (x : Int) = e + bias := by
    refine ⟨(e + bias).toNat, ?_⟩
    simp only [minExponent, bias] at hlo ⊢
    omega
  simp only [minExponent, maxExponent, bias] at hlo hhi hx
  have hp : (Float.Model.pack (.finite .positive m e hm)).unpack =
      UnpackedFloat.unpack Format.binary64
        (packComponents Format.binary64 .positive (BitVec.ofNat 11 x) (BitVec.ofNat 52 m)) :=
    congrArg (UnpackedFloat.unpack Format.binary64) (pack_finite hw hm hx (by omega))
  have he : (x : Int) - bias = e := by
    simp only [bias]
    omega
  rw [hp, unpack_packComponents hw hm (by omega) (by omega)]
  simp only [he]

end Packing

end ControlGroups.Binary64
