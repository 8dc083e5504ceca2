import Mathlib.Data.List.TakeWhile
import ControlGroups.Text.Blank

/-! Blank characters around a text and between its words. They are lost when the text is trimmed or
cut into words, and a text that starts and ends without any is its own trimmed form. -/
namespace ControlGroups.Text

variable {s t u v : String}

/-- A text of blank characters. -/
def Blanks (s : String) : Prop := ∀ c ∈ s.toList, isBlank c = true

theorem Blanks.append (hs : Blanks s) (ht : Blanks t) : Blanks (s ++ t) := by
  intro c hc
  rw [String.toList_append, List.mem_append] at hc
  exact hc.elim (hs c) (ht c)

theorem blanks_empty : Blanks "" := fun _ hc => nomatch hc

theorem blanks_newline : Blanks "\n" := by
  intro c hc
  obtain rfl : c = '\n' := by simpa using hc
  decide

theorem reverse_dropWhile_append {v : List Char} (h : ∀ c ∈ v, isBlank c = true) (cs : List Char) :
    (cs ++ v).reverse.dropWhile isBlank = cs.reverse.dropWhile isBlank := by
  rw [List.reverse_append, List.dropWhile_append_of_pos]
  intro c hc
  exact h c (List.mem_reverse.mp hc)

theorem trimChars_append {u v : List Char} (hu : ∀ c ∈ u, isBlank c = true)
    (hv : ∀ c ∈ v, isBlank c = true) (cs : List Char) :
    trimChars (u ++ cs ++ v) = trimChars cs := by
  rw [trimChars, trimChars, List.append_assoc, List.dropWhile_append_of_pos hu,
    List.dropWhile_append]
  split
  · rename_i he
    have hd : cs.dropWhile isBlank = [] := by simpa using he
    rw [hd, ← List.nil_append (v.dropWhile isBlank), List.dropWhile_eq_nil_iff.mpr hv]
    rfl
  · rw [reverse_dropWhile_append hv]

theorem trim_append (hu : Blanks u) (hv : Blanks v) (s : String) : trim (u ++ s ++ v) = trim s := by
  rw [trim, trim, String.toList_append, String.toList_append, trimChars_append hu hv]

/-- A text that is one word. -/
structure Solid (s : String) : Prop where
  ne_empty : s ≠ ""
  not_blank : ∀ c ∈ s.toList, isBlank c = false

theorem Solid.toList_ne_nil (h : Solid s) : s.toList ≠ [] :=
  fun hs => h.ne_empty (String.toList_eq_nil_iff.mp hs)

theorem Solid.newline_not_mem (h : Solid s) : '\n' ∉ s.toList := by
  intro hm
  exact absurd (h.not_blank '\n' hm) (by decide)

theorem Solid.head? (h : Solid s) (cs : List Char) :
    ∀ c ∈ (s.toList ++ cs).head?, isBlank c = false := by
  intro c hc
  obtain ⟨first, rest, hs⟩ := List.exists_cons_of_ne_nil h.toList_ne_nil
  have hm : first ∈ s.toList := by simp [hs]
  rw [hs] at hc
  exact Option.some.inj hc ▸ h.not_blank first hm

theorem Solid.getLast? (h : Solid s) (cs : List Char) :
    ∀ c ∈ (cs ++ s.toList).getLast?, isBlank c = false := by
  intro c hc
  rw [List.getLast?_append, List.getLast?_eq_some_getLast h.toList_ne_nil, Option.some_or] at hc
  exact Option.some.inj hc ▸ h.not_blank _ (List.getLast_mem h.toList_ne_nil)

theorem dropWhile_eq_self {cs : List Char} (h : ∀ c ∈ cs.head?, isBlank c = false) :
    cs.dropWhile isBlank = cs := by
  cases cs with
  | nil => rfl
  | cons c cs => exact List.dropWhile_cons_of_neg (by simp [h c rfl])

/-- A text that no blank character starts and none ends has nothing to trim. -/
theorem trimChars_eq_self {cs : List Char} (hh : ∀ c ∈ cs.head?, isBlank c = false)
    (hl : ∀ c ∈ cs.getLast?, isBlank c = false) : trimChars cs = cs := by
  have hr : ∀ c ∈ cs.reverse.head?, isBlank c = false := by rwa [List.head?_reverse]
  rw [trimChars, dropWhile_eq_self hh, dropWhile_eq_self hr, List.reverse_reverse]

/-- Text between two words is not trimmed. -/
theorem trim_append_of_solid (hs : Solid s) (ht : Solid t) (u : String) :
    trim (s ++ u ++ t) = s ++ u ++ t := by
  have hl : (s ++ u ++ t).toList = s.toList ++ (u.toList ++ t.toList) := by simp
  have hr : (s ++ u ++ t).toList = (s.toList ++ u.toList) ++ t.toList := by simp
  have hh := hs.head? (u.toList ++ t.toList)
  have hg := ht.getLast? (s.toList ++ u.toList)
  rw [← hl] at hh
  rw [← hr] at hg
  rw [trim, trimChars_eq_self hh hg, String.ofList_toList]

theorem trim_of_solid (hs : Solid s) : trim s = s := by
  have hh := hs.head? []
  have hl := hs.getLast? []
  rw [List.append_nil] at hh
  rw [List.nil_append] at hl
  rw [trim, trimChars_eq_self hh hl, String.ofList_toList]

/-- The words of a list of characters. -/
def wordsOf (cs : List Char) : List (List Char) := (cs.splitOnP isBlank).filter (· ≠ [])

theorem wordsOf_of_solid {cs : List Char} (hne : cs ≠ []) (h : ∀ c ∈ cs, isBlank c = false) :
    wordsOf cs = [cs] := by
  rw [wordsOf, List.splitOnP_eq_singleton h]
  simp [hne]

theorem wordsOf_blanks_append {bs : List Char} (h : ∀ c ∈ bs, isBlank c = true)
    (cs : List Char) : wordsOf (bs ++ cs) = wordsOf cs := by
  induction bs with
  | nil => rfl
  | cons b bs ih =>
    obtain ⟨hb, hbs⟩ := List.forall_mem_cons.mp h
    rw [← ih hbs, List.cons_append, wordsOf, List.splitOnP_cons_eq_if_modifyHead, if_pos hb]
    simp [wordsOf]

/-- A word ends at the first blank character behind it. -/
theorem words_append (hs : Solid s) (hu : Blanks u) (hne : u ≠ "") (t : String) :
    words (s ++ u ++ t) = s :: words t := by
  obtain ⟨b, bs, hb⟩ := List.exists_cons_of_ne_nil
    (fun hn => hne (String.toList_eq_nil_iff.mp hn) : u.toList ≠ [])
  have hl : (s ++ u ++ t).toList = s.toList ++ b :: (bs ++ t.toList) := by simp [hb]
  have hbs : ∀ c ∈ b :: bs, isBlank c = true := hb ▸ hu
  obtain ⟨hb, hbs⟩ := List.forall_mem_cons.mp hbs
  have hw : wordsOf (s.toList ++ b :: (bs ++ t.toList)) = s.toList :: wordsOf t.toList := by
    rw [wordsOf, List.splitOnP_append_cons_of_forall_mem hs.not_blank b hb,
      List.filter_cons_of_pos (by simpa using hs.toList_ne_nil), ← wordsOf,
      wordsOf_blanks_append hbs]
  rw [words, hl, ← wordsOf, hw, List.map_cons, String.ofList_toList]
  rfl

theorem words_of_solid (hs : Solid s) : words s = [s] := by
  rw [words, ← wordsOf, wordsOf_of_solid hs.toList_ne_nil hs.not_blank]
  simp

/-- The newline of a line adds no word to it. -/
theorem words_append_newline (s : String) : words (s ++ "\n") = words s := by
  have hl : (s ++ "\n").toList = s.toList ++ '\n' :: [] := by simp
  have hn : isBlank '\n' = true := by decide
  rw [words, words, hl, List.splitOnP_append_cons _ _ hn, List.filter_append]
  simp

end ControlGroups.Text
