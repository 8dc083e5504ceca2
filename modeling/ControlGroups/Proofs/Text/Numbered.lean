import Mathlib.Data.List.Forall2
import ControlGroups.Proofs.Text.Fields
import ControlGroups.Proofs.Text.Natural

/-! Lines whose first fields are numbers. How the numbers are written is all that such a line can
differ in from another one of the same numbers and the same fields behind them. -/
namespace ControlGroups.Text

variable {ε ρ : Type} {sep : Char} {numbers : List Nat} {rest : List String} {line line' : String}

/-- A line of numbers, in any of their numerals, and more fields behind them. -/
def IsNumbered (sep : Char) (numbers : List Nat) (rest : List String) (line : String) : Prop :=
  ∃ numerals, List.Forall₂ Natural numerals numbers ∧ fields sep line = numerals ++ rest

/-- A line with its first fields in canonical form. -/
def canonicalLine (sep : Char) (k : Nat) (line : String) : String :=
  joinFields sep (((fields sep line).take k).map canonical ++ (fields sep line).drop k)

/-- Lines that are the same but for the numerals in their first fields, which are of the same
numbers. -/
structure SameNumbered (sep : Char) (k : Nat) (line line' : String) : Prop where
  numbers_eq : List.Forall₂ (fun s s' => ∃ n, Natural s n ∧ Natural s' n)
    ((fields sep line).take k) ((fields sep line').take k)
  rest_eq : (fields sep line).drop k = (fields sep line').drop k

/-- A record that a line was read as holds all of the line but the spelling of the numbers in its
first fields. -/
structure Preserved (sep : Char) (k : Nat) (read : String → Except ε ρ) (write : ρ → String)
    (line : String) (record : ρ) : Prop where
  written : write record = canonicalLine sep k line
  readBack : read (write record) = .ok record
  same : ∀ line', read line' = .ok record ↔ SameNumbered sep k line line'

theorem map_canonical {numerals : List String} (h : List.Forall₂ Natural numerals numbers) :
    numerals.map canonical = numbers.map decimal := by
  induction h with
  | nil => rfl
  | cons hn _ ih => rw [List.map_cons, List.map_cons, hn.canonical_eq, ih]

theorem IsNumbered.canonicalLine_eq (h : IsNumbered sep numbers rest line) :
    canonicalLine sep numbers.length line = joinFields sep (numbers.map decimal ++ rest) := by
  obtain ⟨numerals, hn, hf⟩ := h
  rw [canonicalLine, hf, ← hn.length_eq, List.take_left, List.drop_left, map_canonical hn]

/-- The same numbers in canonical form, with the same fields behind them. -/
theorem IsNumbered.joinFields (h : IsNumbered sep numbers rest line) (hs : sep.isDigit = false)
    (hne : numbers ≠ []) :
    IsNumbered sep numbers rest (joinFields sep (numbers.map decimal ++ rest)) := by
  obtain ⟨numerals, hn, hf⟩ := h
  refine ⟨numbers.map decimal, ?_, fields_joinFields (by simp [hne]) ?_⟩
  · rw [List.forall₂_map_left_iff, List.forall₂_same]
    exact fun n _ => natural_decimal n
  · intro part hp
    rcases List.mem_append.mp hp with hp | hp
    · obtain ⟨n, -, rfl⟩ := List.mem_map.mp hp
      exact not_mem_decimal hs n
    · exact sep_not_mem_of_mem_fields (hf ▸ List.mem_append_right numerals hp)

theorem forall₂_same_number {numerals numerals' : List String}
    (h : List.Forall₂ Natural numerals numbers) :
    List.Forall₂ (fun s s' => ∃ n, Natural s n ∧ Natural s' n) numerals numerals' ↔
      List.Forall₂ Natural numerals' numbers := by
  induction h generalizing numerals' with
  | nil => rw [List.forall₂_nil_left_iff, List.forall₂_nil_right_iff]
  | @cons s n numerals numbers hn _ ih =>
    rw [List.forall₂_cons_left_iff, List.forall₂_cons_right_iff]
    constructor
    · rintro ⟨s', numerals', ⟨n', hs, hs'⟩, ht, rfl⟩
      rw [hn.unique hs] at hs'
      exact ⟨s', numerals', hs', ih.mp ht, rfl⟩
    · rintro ⟨s', numerals', hs', ht, rfl⟩
      exact ⟨s', numerals', ⟨n, hn, hs'⟩, ih.mpr ht, rfl⟩

/-- A line differs from a numbered one in its numerals only exactly where it is of the same numbers
and the same fields. -/
theorem IsNumbered.iff_sameNumbered (h : IsNumbered sep numbers rest line) :
    IsNumbered sep numbers rest line' ↔ SameNumbered sep numbers.length line line' := by
  obtain ⟨numerals, hn, hf⟩ := h
  have htake : (fields sep line).take numbers.length = numerals := by
    rw [hf, ← hn.length_eq, List.take_left]
  have hdrop : (fields sep line).drop numbers.length = rest := by
    rw [hf, ← hn.length_eq, List.drop_left]
  constructor
  · rintro ⟨numerals', hn', hf'⟩
    constructor
    · rwa [htake, hf', ← hn'.length_eq, List.take_left, forall₂_same_number hn]
    · rw [hdrop, hf', ← hn'.length_eq, List.drop_left]
  · rintro ⟨hnumbers, hrest⟩
    rw [htake, forall₂_same_number hn] at hnumbers
    rw [hdrop] at hrest
    exact ⟨_, hnumbers, by rw [hrest, List.take_append_drop]⟩

/-- Numbers and fields of which a record consists are all that its lines are read by. -/
theorem IsNumbered.preserved {read : String → Except ε ρ} {write : ρ → String} {record : ρ}
    {accepted : Prop} (h : IsNumbered sep numbers rest line) (hs : sep.isDigit = false)
    (hne : numbers ≠ []) (ha : accepted)
    (hwrite : write record = Text.joinFields sep (numbers.map decimal ++ rest))
    (hread : ∀ line, read line = .ok record ↔ accepted ∧ IsNumbered sep numbers rest line) :
    Preserved sep numbers.length read write line record where
  written := by rw [hwrite, h.canonicalLine_eq]
  readBack := by
    rw [hwrite, hread]
    exact ⟨ha, h.joinFields hs hne⟩
  same line' := by
    rw [hread, ← h.iff_sameNumbered]
    exact and_iff_right ha

end ControlGroups.Text
