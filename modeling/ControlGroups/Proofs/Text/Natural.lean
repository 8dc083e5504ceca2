import ControlGroups.Proofs.Text.Numeral

/-! Numerals of natural numbers. Exactly those in range are read, and each of them is written again
without its sign and the zeros in front of it. -/
namespace ControlGroups.Text

/-- A row of digits is a numeral of a natural number, and so is one with a plus sign in front. -/
inductive Natural : String → Nat → Prop
  | unsigned {ds : List Char} (hne : ds ≠ []) (hd : ∀ c ∈ ds, c.isDigit = true) :
      Natural (String.ofList ds) (Nat.ofDigitChars 10 ds 0)
  | plus {ds : List Char} (hne : ds ≠ []) (hd : ∀ c ∈ ds, c.isDigit = true) :
      Natural (String.ofList ('+' :: ds)) (Nat.ofDigitChars 10 ds 0)

/-- A numeral of a number of 32 bits. -/
def IsNat32 (s : String) : Prop := ∃ n, Natural s n ∧ n ≤ maxNat32

/-- The digits from the first one on that is not zero, or one zero where all are. -/
def withoutZeros (ds : List Char) : String :=
  let digits := ds.dropWhile (· == '0')
  if digits = [] then "0" else String.ofList digits

/-- A numeral without its sign and the zeros in front of it. -/
def canonical (s : String) : String :=
  withoutZeros (if s.toList.head? = some '+' then s.toList.tail else s.toList)

variable {limit v n : Nat} {overflow : NumeralError} {cs ds : List Char} {s : String}

theorem isDigit_of_digit? {c : Char} {d : Nat} (h : digit? c = some d) :
    c.isDigit = true ∧ d = c.toNat - '0'.toNat := by
  rw [digit?] at h
  split at h
  · rename_i hc
    refine ⟨?_, (Option.some.inj h).symm⟩
    rw [Char.isDigit, Bool.and_eq_true, decide_eq_true_eq, decide_eq_true_eq]
    exact hc
  · cases h

theorem isDigit_of_readDigits (hv : v ≤ limit) (h : readDigits limit overflow v cs = .ok n) :
    (∀ c ∈ cs, c.isDigit = true) ∧ n = Nat.ofDigitChars 10 cs v ∧ n ≤ limit := by
  induction cs generalizing v with
  | nil =>
    cases h
    exact ⟨by simp, rfl, hv⟩
  | cons c cs ih =>
    rw [readDigits] at h
    split at h
    · cases h
    · rename_i d hd
      obtain ⟨hc, rfl⟩ := isDigit_of_digit? hd
      split at h
      · rename_i hle
        obtain ⟨hcs, hn, hl⟩ := ih hle h
        rw [Nat.mul_comm, ← Nat.ofDigitChars_cons] at hn
        exact ⟨List.forall_mem_cons.mpr ⟨hc, hcs⟩, hn, hl⟩
      · cases h

/-- Exactly digits of a value in range are read. -/
theorem readMagnitude_eq_ok_iff : readMagnitude limit overflow cs = .ok n ↔
    cs ≠ [] ∧ (∀ c ∈ cs, c.isDigit = true) ∧ n = Nat.ofDigitChars 10 cs 0 ∧ n ≤ limit := by
  constructor
  · intro h
    cases cs with
    | nil => cases h
    | cons c cs => exact ⟨List.cons_ne_nil c cs, isDigit_of_readDigits (Nat.zero_le limit) h⟩
  · rintro ⟨hne, hd, rfl, hn⟩
    exact readMagnitude_of_isDigit hne hd hn

/-- Exactly the numerals of numbers in range are read. -/
theorem readNat_eq_ok_iff : readNat limit s = .ok n ↔ Natural s n ∧ n ≤ limit := by
  constructor
  · intro h
    rw [readNat] at h
    split at h
    · cases h
    · rename_i ds hs
      obtain ⟨hne, hd, rfl, hn⟩ := readMagnitude_eq_ok_iff.mp h
      rw [← String.ofList_toList (s := s), hs]
      exact ⟨.plus hne hd, hn⟩
    · obtain ⟨hne, hd, hv, hn⟩ := readMagnitude_eq_ok_iff.mp h
      have hs := Natural.unsigned hne hd
      rw [String.ofList_toList, ← hv] at hs
      exact ⟨hs, hn⟩
  · rintro ⟨h, hn⟩
    cases h with
    | @unsigned ds hne hd =>
      have hr : readMagnitude limit .tooLarge ds = .ok (Nat.ofDigitChars 10 ds 0) :=
        readMagnitude_of_isDigit hne hd hn
      rw [readNat, String.toList_ofList]
      split
      · exact absurd rfl hne
      · exact absurd (hd '+' List.mem_cons_self) (by decide)
      · exact hr
    | @plus ds hne hd =>
      rw [readNat, String.toList_ofList]
      exact readMagnitude_of_isDigit hne hd hn

theorem readNat32_eq_ok_iff {v : UInt32} : readNat32 s = .ok v ↔ Natural s v.toNat := by
  rw [readNat32, map_eq_ok_iff]
  constructor
  · rintro ⟨n, hn, rfl⟩
    obtain ⟨h, hle⟩ := readNat_eq_ok_iff.mp hn
    have hv : (UInt32.ofNat n).toNat = n := UInt32.toNat_ofNat_of_lt' (Nat.lt_succ_of_le hle)
    rwa [hv]
  · intro h
    have hle : v.toNat ≤ maxNat32 := Nat.le_of_lt_succ v.toNat_lt
    exact ⟨v.toNat, readNat_eq_ok_iff.mpr ⟨h, hle⟩, UInt32.ofNat_toNat⟩

theorem Natural.isNat32 {v : UInt32} (h : Natural s v.toNat) : IsNat32 s :=
  ⟨v.toNat, h, Nat.le_of_lt_succ v.toNat_lt⟩

theorem isNat32_iff : IsNat32 s ↔ ∃ v, readNat32 s = .ok v := by
  constructor
  · rintro ⟨n, h, hle⟩
    exact ⟨UInt32.ofNat n, map_eq_ok_iff.mpr ⟨n, readNat_eq_ok_iff.mpr ⟨h, hle⟩, rfl⟩⟩
  · rintro ⟨v, hv⟩
    exact (readNat32_eq_ok_iff.mp hv).isNat32

theorem exists_readNat32_eq_error (h : ¬ IsNat32 s) : ∃ cause, readNat32 s = .error cause := by
  cases hr : readNat32 s with
  | ok v => exact absurd (isNat32_iff.mpr ⟨v, hr⟩) h
  | error cause => exact ⟨cause, rfl⟩

theorem digitChar_of_isDigit {c : Char} (h : c.isDigit = true) :
    (c.toNat - '0'.toNat).digitChar = c ∧ c.toNat - '0'.toNat < 10 := by
  obtain ⟨hl, hu⟩ := Char.isDigit_iff_toNat.mp h
  have hz : '0'.toNat = 48 := rfl
  have hn : '9'.toNat = 57 := rfl
  have hlt : c.toNat - '0'.toNat < 10 := by omega
  refine ⟨?_, hlt⟩
  rw [← Char.toNat_inj, Nat.toNat_digitChar_of_lt_ten hlt]
  omega

/-- Digits behind a positive number are the last digits of the number that they make with it. -/
theorem toDigits_ofDigitChars (hv : 0 < v) (hd : ∀ c ∈ ds, c.isDigit = true) :
    Nat.toDigits 10 (Nat.ofDigitChars 10 ds v) = Nat.toDigits 10 v ++ ds := by
  induction ds generalizing v with
  | nil => simp
  | cons c ds ih =>
    obtain ⟨hc, hds⟩ := List.forall_mem_cons.mp hd
    obtain ⟨hcd, hlt⟩ := digitChar_of_isDigit hc
    rw [Nat.ofDigitChars_cons, ih (by omega) hds, ← Nat.toDigits_append_toDigits (by decide) hv hlt,
      Nat.toDigits_of_lt_base hlt, hcd, List.append_assoc, List.singleton_append]

theorem ofDigitChars_dropWhile (ds : List Char) :
    Nat.ofDigitChars 10 (ds.dropWhile (· == '0')) 0 = Nat.ofDigitChars 10 ds 0 := by
  induction ds with
  | nil => rfl
  | cons c ds ih =>
    by_cases hc : c = '0'
    · subst hc
      rw [List.dropWhile_cons_of_pos (by decide), ih, Nat.ofDigitChars_cons]
      rfl
    · rw [List.dropWhile_cons_of_neg (by simpa using hc)]

/-- Digits are written again without the zeros in front of them. -/
theorem withoutZeros_eq_decimal (hd : ∀ c ∈ ds, c.isDigit = true) :
    withoutZeros ds = decimal (Nat.ofDigitChars 10 ds 0) := by
  rw [withoutZeros, ← ofDigitChars_dropWhile]
  cases hr : ds.dropWhile (· == '0') with
  | nil => rfl
  | cons c cs =>
    have hz : c ≠ '0' := by
      have hh := List.head?_dropWhile_not (· == '0') ds
      rw [hr] at hh
      simpa using hh
    have hm : ∀ d ∈ c :: cs, d.isDigit = true := fun d hm =>
      hd d ((List.dropWhile_sublist _).subset (hr ▸ hm))
    obtain ⟨hc, hcs⟩ := List.forall_mem_cons.mp hm
    obtain ⟨hcd, hlt⟩ := digitChar_of_isDigit hc
    have hpos : 0 < c.toNat - '0'.toNat := by
      rcases Nat.eq_zero_or_pos (c.toNat - '0'.toNat) with h0 | h0
      · rw [h0] at hcd
        exact absurd hcd.symm hz
      · exact h0
    rw [if_neg (List.cons_ne_nil c cs), ← String.toList_inj, String.toList_ofList, toList_decimal,
      Nat.ofDigitChars_cons, Nat.mul_zero, Nat.zero_add, toDigits_ofDigitChars hpos hcs,
      Nat.toDigits_of_lt_base hlt, hcd]
    rfl

/-- The canonical form of a numeral is the canonical numeral of its number. -/
theorem Natural.canonical_eq (h : Natural s n) : canonical s = decimal n := by
  cases h with
  | @unsigned ds hne hd =>
    have hh : ds.head? ≠ some '+' := by
      intro hh
      exact absurd (hd '+' (List.mem_of_mem_head? hh)) (by decide)
    rw [canonical, String.toList_ofList, if_neg hh, withoutZeros_eq_decimal hd]
  | @plus ds hne hd =>
    rw [canonical, String.toList_ofList, if_pos List.head?_cons, List.tail_cons]
    exact withoutZeros_eq_decimal hd

/-- A numeral stands for one number. -/
theorem Natural.unique {n' : Nat} (h : Natural s n) (h' : Natural s n') : n' = n := by
  have hr := readNat_eq_ok_iff.mpr ⟨h, Nat.le_max_left n n'⟩
  have hr' := readNat_eq_ok_iff.mpr ⟨h', Nat.le_max_right n n'⟩
  exact Except.ok.inj (hr'.symm.trans hr)

theorem natural_decimal (n : Nat) : Natural (decimal n) n :=
  (readNat_eq_ok_iff.mp (readNat_decimal (Nat.le_refl n))).1

end ControlGroups.Text
