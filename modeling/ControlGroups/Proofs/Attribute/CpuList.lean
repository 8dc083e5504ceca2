import Mathlib.Algebra.GroupWithZero.Nat
import Mathlib.Data.List.Forall2
import ControlGroups.Attribute.CpuList
import ControlGroups.Proofs.Attribute.Reading
import ControlGroups.Proofs.Text.Fields
import ControlGroups.Proofs.Text.Integer

/-! What a list of processors is read as. Every item of some text names the processors between two
ends, and the first item that does not decides how the list is refused. -/
namespace ControlGroups.Attribute

open Text (Word)

variable {item : String} {items : List String} {bs : Bytes} {value : String} {n : Nat}
  {word : UInt64} {e : ContentError}

/-- An item and the ends of what it names. A number without a minus sign is both of them, and
elsewhere they stand around the first minus sign. -/
inductive Names : String → Int → Int → Prop
  | single {item : String} {id : Int} (noSign : '-' ∉ item.toList) (number : Word item id) :
      Names item id id
  | range {first last : String} {a b : Int} (noSign : '-' ∉ first.toList) (low : Word first a)
      (high : Word last b) : Names (first ++ "-" ++ last) a b

/-- An item that names some processors, and how many. -/
def Counts (item : String) (n : Nat) : Prop := ∃ a b, Names item a b ∧ a ≤ b ∧ n = b - a + 1

/-- Why an item is refused: it or an end of it is no number, or its ends are the wrong way round. -/
inductive Refused : String → ContentError → Prop
  | single {item : String} {cause : Text.NumeralError} (noSign : '-' ∉ item.toList)
      (malformed : Text.readInt64 item = .error cause) : Refused item (.invalidValue item 1 cause)
  | first {first last : String} {cause : Text.NumeralError} (noSign : '-' ∉ first.toList)
      (malformed : Text.readInt64 first = .error cause) :
      Refused (first ++ "-" ++ last) (.invalidValue first 1 cause)
  | last {first last : String} {a : Int} {cause : Text.NumeralError} (noSign : '-' ∉ first.toList)
      (low : Word first a) (malformed : Text.readInt64 last = .error cause) :
      Refused (first ++ "-" ++ last) (.invalidValue last 1 cause)
  | backwards {first last : String} {a b : Int} (noSign : '-' ∉ first.toList) (low : Word first a)
      (high : Word last b) (lt : b < a) :
      Refused (first ++ "-" ++ last) (.invalidRange (first ++ "-" ++ last) 1)

/-- The items of a list that hold some text. -/
def itemsOf (value : String) : List String := (Text.fields ',' value).filter (· ≠ "")

section Item

theorem countItem_of_not_mem (h : '-' ∉ item.toList) :
    countItem item = (Content.int64 item).map fun _ => 1 := by
  rw [countItem, Text.cutAt_of_not_mem h]

theorem countItem_append {first : String} (h : '-' ∉ first.toList) (last : String) :
    countItem (first ++ "-" ++ last) = (do
      let a ← Content.int64 first
      let b ← Content.int64 last
      if b < a then .error (.invalidRange (first ++ "-" ++ last) 1)
      else .ok (.ofNat (b - a + 1).toNat)) := by
  have hc : Text.cutAt '-' (first ++ "-" ++ last) = some (first, last) := Text.cutAt_append h last
  rw [countItem, hc]

theorem int64_of_word {s : String} {z : Int} (h : Word s z) : Content.int64 s = .ok z := by
  rw [Content.int64, Text.readInt64_eq_ok_iff.mpr h, mapError_ok]

theorem int64_of_malformed {s : String} {cause : Text.NumeralError}
    (h : Text.readInt64 s = .error cause) :
    Content.int64 s = .error (.invalidValue s 1 cause) := by
  rw [Content.int64, h, mapError_error]

/-- What names processors has no negative end where the ends are in order. -/
theorem Names.nonneg {a b : Int} (h : Names item a b) (hab : a ≤ b) : 0 ≤ a ∧ 0 ≤ b := by
  cases h with
  | single noSign number =>
    have ha := number.1.nonneg noSign
    exact ⟨ha, ha⟩
  | range noSign low high =>
    have ha := low.1.nonneg noSign
    exact ⟨ha, Int.le_trans ha hab⟩

theorem Counts.countItem_eq (h : Counts item n) : countItem item = .ok (.ofNat n) := by
  obtain ⟨a, b, hi, hab, hn⟩ := h
  have hw : n = (b - a + 1).toNat := by omega
  cases hi with
  | single noSign number =>
    have hone : n = 1 := by omega
    rw [countItem_of_not_mem noSign, int64_of_word number, hone]
    rfl
  | range noSign low high =>
    rw [countItem_append noSign, int64_of_word low, ok_bind, int64_of_word high, ok_bind,
      if_neg (by omega), hw]

theorem Refused.countItem_eq (h : Refused item e) : countItem item = .error e := by
  cases h with
  | single noSign malformed =>
    rw [countItem_of_not_mem noSign, int64_of_malformed malformed]
    rfl
  | first noSign malformed =>
    rw [countItem_append noSign, int64_of_malformed malformed, error_bind]
  | last noSign low malformed =>
    rw [countItem_append noSign, int64_of_word low, ok_bind, int64_of_malformed malformed,
      error_bind]
  | backwards noSign low high lt =>
    rw [countItem_append noSign, int64_of_word low, ok_bind, int64_of_word high, ok_bind,
      if_pos lt]

/-- An item names some processors, or there is a reason to refuse it. -/
theorem counts_or_refused (item : String) : (∃ n, Counts item n) ∨ ∃ e, Refused item e := by
  rcases Text.not_mem_or_eq_append '-' item with h | ⟨first, last, rfl, h⟩
  · cases hr : Text.readInt64 item with
    | error cause => exact .inr ⟨_, .single h hr⟩
    | ok id =>
      have hi := Names.single h (Text.readInt64_eq_ok_iff.mp hr)
      exact .inl ⟨1, id, id, hi, Int.le_refl id, by omega⟩
  · cases hf : Text.readInt64 first with
    | error cause => exact .inr ⟨_, .first h hf⟩
    | ok a =>
      have low := Text.readInt64_eq_ok_iff.mp hf
      cases hl : Text.readInt64 last with
      | error cause => exact .inr ⟨_, .last h low hl⟩
      | ok b =>
        have high := Text.readInt64_eq_ok_iff.mp hl
        by_cases hlt : b < a
        · exact .inr ⟨_, .backwards h low high hlt⟩
        · have hi := Names.range h low high
          exact .inl ⟨(b - a + 1).toNat, a, b, hi, by omega, by omega⟩

theorem countItem_eq_ok_iff :
    countItem item = .ok word ↔ ∃ n, Counts item n ∧ word = .ofNat n := by
  constructor
  · intro h
    rcases counts_or_refused item with ⟨n, hn⟩ | ⟨e, he⟩
    · exact ⟨n, hn, Except.ok.inj (h.symm.trans hn.countItem_eq)⟩
    · cases h.symm.trans he.countItem_eq
  · rintro ⟨n, hn, rfl⟩
    exact hn.countItem_eq

theorem countItem_eq_error_iff : countItem item = .error e ↔ Refused item e := by
  refine ⟨fun h => ?_, Refused.countItem_eq⟩
  rcases counts_or_refused item with ⟨m, hm⟩ | ⟨e, he⟩
  · cases h.symm.trans hm.countItem_eq
  · cases h.symm.trans he.countItem_eq
    exact he

end Item

/-- Items are counted one by one, and the counts are added up in words. -/
theorem countItems_eq_ok_iff : countItems items = .ok word ↔
    ∃ counts, List.Forall₂ Counts items counts ∧ word = .ofNat counts.sum := by
  induction items generalizing word with
  | nil =>
    rw [countItems, Except.ok.injEq]
    constructor
    · rintro rfl
      exact ⟨[], .nil, rfl⟩
    · rintro ⟨counts, hc, rfl⟩
      cases hc
      rfl
  | cons item items ih =>
    simp only [countItems, bind_eq_ok_iff, countItem_eq_ok_iff, ih]
    constructor
    · rintro ⟨_, ⟨first, hf, rfl⟩, _, ⟨counts, hc, rfl⟩, h⟩
      cases h
      exact ⟨first :: counts, .cons hf hc, by rw [List.sum_cons, UInt64.ofNat_add]⟩
    · rintro ⟨_, hc, rfl⟩
      cases hc with
      | cons hf hc =>
        exact ⟨_, ⟨_, hf, rfl⟩, _, ⟨_, hc, rfl⟩, by rw [List.sum_cons, UInt64.ofNat_add]⟩

/-- The counts of these items add up to the first number past a word. -/
example : countItems ["0-9223372036854775806", "0-9223372036854775806", "0-1"] = .ok 0 := by
  rfl

/-- The first item that is refused decides about the answer. -/
theorem countItems_eq_error_iff : countItems items = .error e ↔
    ∃ before item after, items = before ++ item :: after ∧
      (∀ other ∈ before, ∃ n, Counts other n) ∧ Refused item e := by
  induction items with
  | nil => simp [countItems]
  | cons first items ih =>
    simp only [countItems, bind_eq_error_iff, countItem_eq_ok_iff, countItem_eq_error_iff, ih]
    constructor
    · rintro (hr | ⟨_, ⟨n, hn, -⟩, ⟨before, item, after, rfl, hb, hr⟩ | ⟨m, -, h⟩⟩)
      · exact ⟨[], first, items, rfl, by simp, hr⟩
      · exact ⟨first :: before, item, after, rfl, List.forall_mem_cons.mpr ⟨⟨n, hn⟩, hb⟩, hr⟩
      · cases h
    · rintro ⟨before, item, after, hs, hb, hr⟩
      cases before with
      | nil =>
        obtain ⟨rfl, rfl⟩ := List.cons.inj hs
        exact .inl hr
      | cons other before =>
        obtain ⟨rfl, rfl⟩ := List.cons.inj hs
        obtain ⟨⟨n, hn⟩, hb⟩ := List.forall_mem_cons.mp hb
        exact .inr ⟨_, ⟨n, hn, rfl⟩, .inl ⟨before, item, after, rfl, hb, hr⟩⟩

theorem read_cpuList (h : Content.FirstValue bs value) :
    (cpuList.read bs).1 = countItems (itemsOf value) := read_of_firstValue h

end ControlGroups.Attribute
