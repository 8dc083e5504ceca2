import Mathlib.Algebra.Group.Int.Defs
import ControlGroups.Proofs.Failure
import ControlGroups.Proofs.Text.Blank
import ControlGroups.Text.Numeral

/-! Canonical numerals are read back as the numbers that they are written for. -/
namespace ControlGroups.Text

theorem digit?_of_isDigit {c : Char} (h : c.isDigit = true) :
    digit? c = some (c.toNat - '0'.toNat) := by
  simp only [Char.isDigit, Bool.and_eq_true, decide_eq_true_eq] at h
  exact if_pos h

theorem le_ofDigitChars (cs : List Char) (v : Nat) : v ≤ Nat.ofDigitChars 10 cs v := by
  rw [Nat.ofDigitChars_eq_ofDigitChars_zero]
  exact Nat.le_trans (Nat.le_mul_of_pos_left v (Nat.pow_pos (by decide))) (Nat.le_add_right _ _)

/-- Digits are read as their value where that is in range. No shorter row of them is out of range
then. -/
theorem readDigits_of_isDigit {limit : Nat} {overflow : NumeralError} {cs : List Char} {v : Nat}
    (hd : ∀ c ∈ cs, c.isDigit = true) (h : Nat.ofDigitChars 10 cs v ≤ limit) :
    readDigits limit overflow v cs = .ok (Nat.ofDigitChars 10 cs v) := by
  induction cs generalizing v with
  | nil => rfl
  | cons c cs ih =>
    obtain ⟨hc, hcs⟩ := List.forall_mem_cons.mp hd
    rw [Nat.ofDigitChars_cons, Nat.mul_comm] at h ⊢
    have hv : v * 10 + (c.toNat - '0'.toNat) ≤ limit := Nat.le_trans (le_ofDigitChars cs _) h
    simp only [readDigits, digit?_of_isDigit hc, if_pos hv]
    exact ih hcs h

theorem readMagnitude_of_isDigit {limit : Nat} {overflow : NumeralError} {cs : List Char}
    (hne : cs ≠ []) (hd : ∀ c ∈ cs, c.isDigit = true) (h : Nat.ofDigitChars 10 cs 0 ≤ limit) :
    readMagnitude limit overflow cs = .ok (Nat.ofDigitChars 10 cs 0) := by
  cases cs with
  | nil => exact absurd rfl hne
  | cons c cs => exact readDigits_of_isDigit hd h

theorem toList_decimal (n : Nat) : (decimal n).toList = Nat.toDigits 10 n := by
  rw [decimal, Nat.repr_eq_ofList_toDigits, String.toList_ofList]

theorem isDigit_of_mem_decimal {n : Nat} {c : Char} (h : c ∈ (decimal n).toList) :
    c.isDigit = true := by
  rw [toList_decimal] at h
  exact Nat.isDigit_of_mem_toDigits (by decide) (by decide) h

theorem not_mem_decimal {c : Char} (h : c.isDigit = false) (n : Nat) : c ∉ (decimal n).toList := by
  intro hm
  rw [isDigit_of_mem_decimal hm] at h
  cases h

theorem readNat_decimal {limit n : Nat} (h : n ≤ limit) : readNat limit (decimal n) = .ok n := by
  have hd : ∀ c ∈ (decimal n).toList, c.isDigit = true := fun c => isDigit_of_mem_decimal
  have hv : Nat.ofDigitChars 10 (decimal n).toList 0 = n := by
    rw [toList_decimal, Nat.ofDigitChars_ten_toDigits]
  have hne : (decimal n).toList ≠ [] := by
    rw [toList_decimal]
    exact Nat.toDigits_ne_nil
  obtain ⟨c, cs, hc⟩ := List.exists_cons_of_ne_nil hne
  rw [hc] at hd hv
  have hp : c ≠ '+' := by
    rintro rfl
    exact absurd (hd '+' (by simp)) (by decide)
  have hr : readMagnitude limit .tooLarge (c :: cs) = .ok n := by
    rw [readMagnitude_of_isDigit (List.cons_ne_nil c cs) hd (by rwa [hv]), hv]
  rw [readNat, hc]
  split
  · rename_i he
    cases he
  · rename_i he
    exact absurd (List.cons.inj he).1 hp
  · exact hr

/-- A number of 32 bits is read back from its canonical numeral. -/
theorem readNat32_decimal (n : UInt32) : readNat32 (decimal n.toNat) = .ok n := by
  have h : n.toNat ≤ maxNat32 := Nat.le_of_lt_succ n.toNat_lt
  rw [readNat32, readNat_decimal h, Except.map, UInt32.ofNat_toNat]

/-- An integer that fits a signed word. -/
def IsInt64 (n : Int) : Prop := -2 ^ 63 ≤ n ∧ n ≤ 2 ^ 63 - 1

/-- A row of digits is a numeral, and so is one with a sign in front of it. -/
inductive Numeral : String → Int → Prop
  | unsigned {ds : List Char} (hne : ds ≠ []) (hd : ∀ c ∈ ds, c.isDigit = true) :
      Numeral (String.ofList ds) (Nat.ofDigitChars 10 ds 0)
  | plus {ds : List Char} (hne : ds ≠ []) (hd : ∀ c ∈ ds, c.isDigit = true) :
      Numeral (String.ofList ('+' :: ds)) (Nat.ofDigitChars 10 ds 0)
  | minus {ds : List Char} (hne : ds ≠ []) (hd : ∀ c ∈ ds, c.isDigit = true) :
      Numeral (String.ofList ('-' :: ds)) (-Nat.ofDigitChars 10 ds 0)

variable {s : String} {n : Int}

theorem readInt64_of_isDigit {c : Char} {cs : List Char} (hd : ∀ d ∈ c :: cs, d.isDigit = true) :
    readInt64 (String.ofList (c :: cs)) =
      (readMagnitude maxInt64 .tooLarge (c :: cs)).map Int.ofNat := by
  have hc := hd c List.mem_cons_self
  have hm : c ≠ '-' := by
    rintro rfl
    exact absurd hc (by decide)
  have hp : c ≠ '+' := by
    rintro rfl
    exact absurd hc (by decide)
  rw [readInt64, String.toList_ofList]
  split
  · rename_i he
    cases he
  · rename_i he
    exact absurd (List.cons.inj he).1 hm
  · rename_i he
    exact absurd (List.cons.inj he).1 hp
  · rfl

theorem readInt64_plus (ds : List Char) : readInt64 (String.ofList ('+' :: ds)) =
    (readMagnitude maxInt64 .tooLarge ds).map Int.ofNat := by
  rw [readInt64, String.toList_ofList]
  rfl

theorem readInt64_minus (ds : List Char) : readInt64 (String.ofList ('-' :: ds)) =
    (readMagnitude (maxInt64 + 1) .tooSmall ds).map fun n => -(n : Int) := by
  rw [readInt64, String.toList_ofList]
  rfl

/-- A numeral in range is read as the integer that it stands for. -/
theorem readInt64_of_numeral (h : Numeral s n) (hn : IsInt64 n) : readInt64 s = .ok n := by
  obtain ⟨hl, hu⟩ := hn
  cases h with
  | @unsigned ds hne hd =>
    obtain ⟨c, cs, rfl⟩ := List.exists_cons_of_ne_nil hne
    have hle : Nat.ofDigitChars 10 (c :: cs) 0 ≤ maxInt64 := by
      simp only [maxInt64]
      omega
    rw [readInt64_of_isDigit hd, readMagnitude_of_isDigit hne hd hle]
    rfl
  | @plus ds hne hd =>
    have hle : Nat.ofDigitChars 10 ds 0 ≤ maxInt64 := by
      simp only [maxInt64]
      omega
    rw [readInt64_plus, readMagnitude_of_isDigit hne hd hle]
    rfl
  | @minus ds hne hd =>
    have hle : Nat.ofDigitChars 10 ds 0 ≤ maxInt64 + 1 := by
      simp only [maxInt64]
      omega
    rw [readInt64_minus, readMagnitude_of_isDigit hne hd hle]
    rfl

theorem readMagnitude_le {limit m : Nat} {overflow : NumeralError} {cs : List Char}
    (h : readMagnitude limit overflow cs = .ok m) : m ≤ limit := by
  cases cs with
  | nil => cases h
  | cons c cs => exact readDigits_le (Nat.zero_le limit) h

theorem isInt64_of_le {m : Nat} (h : m ≤ maxInt64) : IsInt64 m := by
  simp only [maxInt64] at h
  constructor <;> omega

theorem isInt64_neg_of_le {m : Nat} (h : m ≤ maxInt64 + 1) : IsInt64 (-m) := by
  simp only [maxInt64] at h
  constructor <;> omega

/-- What is read fits a signed word. -/
theorem isInt64_of_readInt64 (h : readInt64 s = .ok n) : IsInt64 n := by
  rw [readInt64] at h
  split at h
  · cases h
  · obtain ⟨_, hb, rfl⟩ := map_eq_ok_iff.mp h
    obtain ⟨m, hm, hp⟩ := bind_eq_ok_iff.mp hb
    cases hp
    exact isInt64_neg_of_le (readMagnitude_le hm)
  · obtain ⟨m, hm, rfl⟩ := map_eq_ok_iff.mp h
    exact isInt64_of_le (readMagnitude_le hm)
  · obtain ⟨m, hm, rfl⟩ := map_eq_ok_iff.mp h
    exact isInt64_of_le (readMagnitude_le hm)

/-- A negative integer counts as zero. -/
theorem IsInt64.toNat (h : IsInt64 n) : IsInt64 n.toNat := by
  obtain ⟨hl, hu⟩ := h
  constructor <;> omega

theorem not_blank_of_isDigit {c : Char} (h : c.isDigit = true) : isBlank c = false := by
  simp only [Char.isDigit, Bool.and_eq_true, decide_eq_true_eq] at h
  obtain ⟨hl, hu⟩ := h
  have hl' : 48 ≤ c.toNat := UInt32.le_iff_toNat_le.mp hl
  have hu' : c.toNat ≤ 57 := UInt32.le_iff_toNat_le.mp hu
  rw [isBlank, List.any_eq_false]
  intro r hr
  simp only [blankRanges, List.mem_cons, List.not_mem_nil, or_false] at hr
  rw [Bool.and_eq_true, decide_eq_true_eq, decide_eq_true_eq]
  rcases hr with rfl | rfl | rfl | rfl | rfl | rfl | rfl | rfl | rfl | rfl <;> omega

theorem solid_of_isDigit {ds : List Char} (hne : ds ≠ []) (hd : ∀ c ∈ ds, c.isDigit = true) :
    Solid (String.ofList ds) where
  ne_empty := by simpa using hne
  not_blank c hc := by
    rw [String.toList_ofList] at hc
    exact not_blank_of_isDigit (hd c hc)

theorem solid_cons {c : Char} {ds : List Char} (hc : isBlank c = false)
    (hd : ∀ c ∈ ds, c.isDigit = true) : Solid (String.ofList (c :: ds)) where
  ne_empty := by simp
  not_blank d hm := by
    rw [String.toList_ofList] at hm
    rcases List.mem_cons.mp hm with rfl | hm
    · exact hc
    · exact not_blank_of_isDigit (hd d hm)

/-- A numeral is one word. -/
theorem Numeral.solid (h : Numeral s n) : Solid s := by
  cases h with
  | unsigned hne hd => exact solid_of_isDigit hne hd
  | plus hne hd => exact solid_cons (by decide) hd
  | minus hne hd => exact solid_cons (by decide) hd

end ControlGroups.Text
