import ControlGroups.Proofs.Text.Natural

/-! Numerals of integers. Exactly those that fit a signed word are read as one, and one that is out
of range is refused on the side on which it is. -/
namespace ControlGroups.Text

variable {limit v n : Nat} {overflow : NumeralError} {cs ds : List Char} {s : String} {z : Int}

/-- A numeral of an integer that fits a signed word. -/
def Word (s : String) (z : Int) : Prop := Numeral s z ∧ IsInt64 z

/-- The value of digits only grows, so one above the limit is noticed at some digit. -/
theorem readDigits_of_lt (hd : ∀ c ∈ cs, c.isDigit = true) (hv : v ≤ limit)
    (h : limit < Nat.ofDigitChars 10 cs v) : readDigits limit overflow v cs = .error overflow := by
  induction cs generalizing v with
  | nil =>
    rw [Nat.ofDigitChars_nil] at h
    omega
  | cons c cs ih =>
    obtain ⟨hc, hcs⟩ := List.forall_mem_cons.mp hd
    rw [Nat.ofDigitChars_cons, Nat.mul_comm] at h
    simp only [readDigits, digit?_of_isDigit hc]
    split
    · rename_i hle
      exact ih hcs hle h
    · rfl

theorem readMagnitude_of_lt (hd : ∀ c ∈ ds, c.isDigit = true)
    (h : limit < Nat.ofDigitChars 10 ds 0) : readMagnitude limit overflow ds = .error overflow := by
  cases ds with
  | nil => simp at h
  | cons c ds => exact readDigits_of_lt hd (Nat.zero_le limit) h

/-- A number above the limit is too large. -/
theorem readNat_of_lt (hs : Natural s n) (h : limit < n) :
    readNat limit s = .error .tooLarge := by
  cases hs with
  | @unsigned ds hne hd =>
    have hr : readMagnitude limit .tooLarge ds = .error .tooLarge := readMagnitude_of_lt hd h
    rw [readNat, String.toList_ofList]
    split
    · exact absurd rfl hne
    · exact absurd (hd '+' List.mem_cons_self) (by decide)
    · exact hr
  | @plus ds hne hd =>
    rw [readNat, String.toList_ofList]
    exact readMagnitude_of_lt hd h

theorem Natural.numeral (h : Natural s n) : Numeral s n := by
  cases h with
  | unsigned hne hd => exact .unsigned hne hd
  | plus hne hd => exact .plus hne hd

/-- A numeral has a minus sign, or it is one of a natural number. -/
theorem Numeral.sign_cases (h : Numeral s z) :
    (∃ ds, s = String.ofList ('-' :: ds) ∧ ds ≠ [] ∧ (∀ c ∈ ds, c.isDigit = true) ∧
      z = -Nat.ofDigitChars 10 ds 0) ∨
    ∃ n : Nat, z = n ∧ Natural s n ∧ '-' ∉ s.toList := by
  cases h with
  | @unsigned ds hne hd =>
    refine .inr ⟨_, rfl, .unsigned hne hd, ?_⟩
    rw [String.toList_ofList]
    intro hm
    exact absurd (hd '-' hm) (by decide)
  | @plus ds hne hd =>
    refine .inr ⟨_, rfl, .plus hne hd, ?_⟩
    rw [String.toList_ofList]
    intro hm
    rcases List.mem_cons.mp hm with hp | hm
    · exact absurd hp (by decide)
    · exact absurd (hd '-' hm) (by decide)
  | @minus ds hne hd => exact .inl ⟨ds, rfl, hne, hd, rfl⟩

theorem numeral_of_readInt64 (h : readInt64 s = .ok z) : Numeral s z := by
  rw [readInt64] at h
  split at h
  · cases h
  · rename_i ds hs
    obtain ⟨_, hb, rfl⟩ := map_eq_ok_iff.mp h
    obtain ⟨m, hm, hp⟩ := bind_eq_ok_iff.mp hb
    cases hp
    obtain ⟨hne, hd, rfl, -⟩ := readMagnitude_eq_ok_iff.mp hm
    rw [← String.ofList_toList (s := s), hs]
    exact .minus hne hd
  · rename_i ds hs
    obtain ⟨m, hm, rfl⟩ := map_eq_ok_iff.mp h
    obtain ⟨hne, hd, rfl, -⟩ := readMagnitude_eq_ok_iff.mp hm
    rw [← String.ofList_toList (s := s), hs]
    exact .plus hne hd
  · obtain ⟨m, hm, rfl⟩ := map_eq_ok_iff.mp h
    obtain ⟨hne, hd, rfl, -⟩ := readMagnitude_eq_ok_iff.mp hm
    have hn := Numeral.unsigned hne hd
    rwa [String.ofList_toList] at hn

/-- Exactly the numerals of integers that fit a signed word are read. -/
theorem readInt64_eq_ok_iff : readInt64 s = .ok z ↔ Word s z := by
  constructor
  · intro h
    exact ⟨numeral_of_readInt64 h, isInt64_of_readInt64 h⟩
  · rintro ⟨hs, hz⟩
    exact readInt64_of_numeral hs hz

/-- Only a minus sign leads below the range. -/
theorem readInt64_minus_of_lt (hd : ∀ c ∈ ds, c.isDigit = true)
    (h : maxInt64 + 1 < Nat.ofDigitChars 10 ds 0) :
    readInt64 (String.ofList ('-' :: ds)) = .error .tooSmall := by
  have hr : readMagnitude (maxInt64 + 1) .tooSmall ds = .error .tooSmall :=
    readMagnitude_of_lt hd h
  rw [readInt64_minus, hr]
  rfl

theorem Numeral.nonneg (h : Numeral s z) (hs : '-' ∉ s.toList) : 0 ≤ z := by
  rcases h.sign_cases with ⟨ds, rfl, -⟩ | ⟨n, rfl, -⟩
  · rw [String.toList_ofList] at hs
    exact absurd List.mem_cons_self hs
  · exact Int.natCast_nonneg n

end ControlGroups.Text
