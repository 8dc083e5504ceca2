import ControlGroups.Proofs.Text.Lines

/-! Where a text of ASCII occurs. Its bytes stand in a file exactly where the text stands in what
the file is decoded to, and neither the malformed bytes around it nor the cutting into lines hide an
occurrence or make one up. -/
namespace ControlGroups.Text

/-- Characters of ASCII, the one of code zero apart. -/
def Ascii (cs : List Char) : Prop := ∀ c ∈ cs, 0 < c.toNat ∧ c.toNat < 0x80

section Units
variable {c : Char} {b : UInt8} {bs : Bytes} {o : Option Pending} {before after : List Decoded}

theorem startAt_of_toNat_eq (hc : c.toNat < 0x80) (hb : b.toNat = c.toNat) :
    startAt b = ([some c], none) := by
  have hl : b < 0x80 := UInt8.lt_iff_toNat_lt.mpr (by rw [hb]; exact hc)
  rw [startAt, if_pos hl, hb, Char.ofNat_toNat]

/-- The byte of a character of ASCII completes that character and leaves none open. -/
theorem feed_of_some_mem (hc : 0 < c.toNat ∧ c.toNat < 0x80) (ho : ∀ q ∈ o, q.Wide)
    (h : some c ∈ (feed o b).1) :
    b = UInt8.ofNat c.toNat ∧ feed o b = (flush o ++ [some c], none) := by
  have hb : b.toNat = c.toNat := eq_of_mem_feed hc ho h
  constructor
  · rw [← hb, UInt8.ofNat_toNat]
  · rw [feed_of_startsCharacter ho (.inl (by omega)), startAt_of_toNat_eq hc.2 hb]

theorem flush_append_singleton_eq (h : flush o ++ [some c] = before ++ some c :: after) :
    before = flush o ∧ after = [] := by
  rcases List.eq_nil_or_concat after with rfl | ⟨init, last, rfl⟩
  · exact ⟨(List.append_inj_left' h rfl).symm, rfl⟩
  · rw [List.concat_eq_append, ← List.cons_append, ← List.append_assoc] at h
    have hf : flush o = before ++ some c :: init := List.append_inj_left' h rfl
    have hm : some c ∈ flush o := by simp [hf]
    cases o <;> simp [flush] at hm

/-- A character of ASCII among the units of some bytes parts the bytes at its own byte. -/
theorem exists_of_decodeFrom_eq (hc : 0 < c.toNat ∧ c.toNat < 0x80) (ho : ∀ q ∈ o, q.Wide)
    (h : decodeFrom o bs = before ++ some c :: after) :
    ∃ front back, bs = front ++ UInt8.ofNat c.toNat :: back ∧
      decodeFrom o front = before ∧ decode back = after := by
  induction bs generalizing o before with
  | nil =>
    have hm : some c ∈ flush o := by simp [← decodeFrom_nil, h]
    cases o <;> simp [flush] at hm
  | cons b bs ih =>
    have hw : ∀ q ∈ (feed o b).2, q.Wide := fun q hq => wide_of_feed ho hq
    rw [decodeFrom_cons] at h
    rcases List.append_eq_append_iff.mp h with ⟨rest, rfl, hr⟩ | ⟨units, hu, hr⟩
    · obtain ⟨front, back, rfl, hf, hb⟩ := ih hw hr
      exact ⟨b :: front, back, rfl, by rw [decodeFrom_cons, hf], hb⟩
    · cases units with
      | nil =>
        have hd : decodeFrom (feed o b).2 bs = [] ++ some c :: after := hr.symm
        obtain ⟨front, back, rfl, hf, hb⟩ := ih hw hd
        exact ⟨b :: front, back, rfl, by rw [decodeFrom_cons, hf, hu]; simp, hb⟩
      | cons first units =>
        obtain ⟨rfl, ha⟩ := List.cons.inj hr
        obtain ⟨hb, hf⟩ := feed_of_some_mem hc ho (b := b) (by simp [hu])
        rw [hf] at hu ha
        obtain ⟨rfl, rfl⟩ := flush_append_singleton_eq hu
        exact ⟨[], bs, by rw [hb, List.nil_append], rfl, ha.symm⟩

end Units

section Occurrences
variable {needle s t : String} {bs : Bytes}

theorem encode_singleton_of_ascii {c : Char} (hc : c.toNat < 0x80) :
    encode (String.singleton c) = [UInt8.ofNat c.toNat] := by
  have hv : c.val.toNat ≤ 0x7F := Nat.le_of_lt_succ hc
  rw [encode, String.toList_singleton, List.flatMap_singleton, String.utf8EncodeChar, if_pos hv]
  rfl

theorem encode_ofList_cons {c : Char} (hc : c.toNat < 0x80) (cs : List Char) :
    encode (String.ofList (c :: cs)) = UInt8.ofNat c.toNat :: encode (String.ofList cs) := by
  rw [String.ofList_cons, encode_append, encode_singleton_of_ascii hc, List.singleton_append]

/-- Bytes whose units begin with a text of ASCII begin with its bytes. -/
theorem encode_isPrefix_of_decode {cs : List Char} (h : Ascii cs)
    (hd : cs.map some <+: decode bs) : encode (String.ofList cs) <+: bs := by
  induction cs generalizing bs with
  | nil => exact List.nil_prefix
  | cons c cs ih =>
    obtain ⟨hc, hcs⟩ := List.forall_mem_cons.mp h
    obtain ⟨after, ha⟩ := hd
    have hu : decodeFrom none bs = [] ++ some c :: (cs.map some ++ after) := ha.symm
    obtain ⟨front, back, rfl, hf, hb⟩ := exists_of_decodeFrom_eq hc (by simp) hu
    obtain ⟨-, rfl⟩ := decodeFrom_eq_nil_iff.mp hf
    rw [encode_ofList_cons hc.2, List.nil_append, List.prefix_cons_inj]
    exact ih hcs ⟨after, hb.symm⟩

theorem encode_isInfix_of_decode {cs : List Char} (h : Ascii cs)
    (hd : cs.map some <:+: decode bs) : encode (String.ofList cs) <:+: bs := by
  cases cs with
  | nil => exact List.nil_infix
  | cons c cs =>
    obtain ⟨hc, hcs⟩ := List.forall_mem_cons.mp h
    obtain ⟨before, after, ha⟩ := hd
    rw [List.append_assoc] at ha
    obtain ⟨front, back, rfl, -, hb⟩ := exists_of_decodeFrom_eq hc (by simp) ha.symm
    obtain ⟨rest, rfl⟩ := encode_isPrefix_of_decode hcs ⟨after, hb.symm⟩
    rw [encode_ofList_cons hc.2]
    exact ⟨front, rest, by simp⟩

/-- The characters of a text of ASCII are none that a malformed sequence is replaced by. -/
theorem map_some_isInfix_of_isInfix {cs : List Char} (h : Ascii cs)
    (hd : cs <:+: (decodeLossy bs).toList) : cs.map some <:+: decode bs := by
  rw [decodeLossy, String.toList_ofList, List.infix_map_iff] at hd
  obtain ⟨units, hi, rfl⟩ := hd
  have hs : ∀ d ∈ units, (some ∘ fun x : Decoded => x.getD replacement) d = d := by
    intro d hd
    cases d with
    | none => exact absurd (h _ (List.mem_map_of_mem hd)) (by decide)
    | some c => rfl
  have hm : (units.map (·.getD replacement)).map some = units := by
    rw [List.map_map, List.map_congr_left hs, List.map_id']
  rwa [hm]

theorem decodeLossy_encode_append (s : String) (bs : Bytes) :
    decodeLossy (encode s ++ bs) = s ++ decodeLossy bs := by
  rw [decodeLossy, decode_encode_append, List.map_append, String.ofList_append]
  simp [decodeLossy, Function.comp_def]

/-- Encoded text stays in one piece when the bytes around it are decoded with it. -/
theorem isInfix_decodeLossy_of_isInfix (h : encode s <:+: bs) :
    s.toList <:+: (decodeLossy bs).toList := by
  obtain ⟨front, back, rfl⟩ := h
  by_cases hs : encode s = []
  · rw [← decodeLossy_encode s, hs]
    exact List.nil_infix
  · have hb : ∀ b ∈ (encode s ++ back).head?, StartsCharacter b := by
      intro b hm
      rw [List.head?_append_of_ne_nil _ hs] at hm
      exact startsCharacter_of_mem_head?_encode hm
    rw [List.append_assoc, decodeLossy_append hb, decodeLossy_encode_append, String.toList_append,
      String.toList_append]
    exact List.infix_append' _ _ _

/-- A text of ASCII occurs in what some bytes are decoded to exactly where its bytes occur. -/
theorem isInfix_decodeLossy_iff (h : Ascii s.toList) :
    s.toList <:+: (decodeLossy bs).toList ↔ encode s <:+: bs := by
  constructor
  · intro hd
    have he := encode_isInfix_of_decode h (map_some_isInfix_of_isInfix h hd)
    rwa [String.ofList_toList] at he
  · exact isInfix_decodeLossy_of_isInfix

end Occurrences

section Lines
variable {α : Type} {needle l more : List α} {sep : α}

theorem eq_nil_of_isPrefix_cons (h : sep ∉ needle) (hp : needle <+: sep :: more) :
    needle = [] := by
  cases needle with
  | nil => rfl
  | cons a needle =>
    obtain ⟨rfl, -⟩ := List.cons_prefix_cons.mp hp
    exact absurd List.mem_cons_self h

/-- What does not hold a separator does not reach over one. -/
theorem isInfix_append_cons_iff (h : sep ∉ needle) :
    needle <:+: l ++ sep :: more ↔ needle <:+: l ∨ needle <:+: more := by
  constructor
  · intro hi
    rcases List.infix_append_iff.mp hi with hl | hm | ⟨first, second, rfl, hf, hs⟩
    · exact .inl hl
    · rcases List.infix_cons_iff.mp hm with hp | hm
      · exact .inl (by simp [eq_nil_of_isPrefix_cons h hp])
      · exact .inr hm
    · have hn : second = [] := eq_nil_of_isPrefix_cons (fun hm => h (by simp [hm])) hs
      rw [hn, List.append_nil]
      exact .inl hf.isInfix
  · rintro (hl | hm)
    · exact List.infix_append_of_infix_left hl
    · exact List.infix_append_of_infix_right (List.infix_cons hm)

/-- Nothing is lost to a search when elements that it does not look for are dropped at the end. -/
theorem isInfix_rdropWhile_iff {p : α → Bool} (h : ∀ a ∈ needle, p a = false) :
    needle <:+: l.rdropWhile p ↔ needle <:+: l := by
  constructor
  · intro hi
    exact hi.trans (List.rdropWhile_prefix p l).isInfix
  · intro hi
    induction l using List.reverseRecOn with
    | nil => exact hi
    | append_singleton l a ih =>
      by_cases ha : p a = true
      · have hn : a ∉ needle := by
          intro hm
          rw [h a hm] at ha
          cases ha
        rw [List.rdropWhile_concat_pos _ _ _ ha]
        rcases (isInfix_append_cons_iff hn).mp hi with hl | he
        · exact ih hl
        · rw [List.infix_nil.mp he]
          exact List.nil_infix
      · rwa [List.rdropWhile_concat_neg _ _ _ ha]

/-- An occurrence in a file lies on one of its lines. -/
theorem isInfix_iff_exists_mem_lines {needle bs : Bytes} (hne : needle ≠ [])
    (hn : newline ∉ needle) : needle <:+: bs ↔ ∃ l ∈ lines bs, needle <:+: l := by
  constructor
  · intro hi
    induction bs using line_induction with
    | last bs hb =>
      have hbs : bs ≠ [] := by
        rintro rfl
        exact hne (List.infix_nil.mp hi)
      exact ⟨bs, by simp [lines_of_not_mem hb hbs], hi⟩
    | line l more hl ih =>
      rw [lines_append_newline hl]
      rcases (isInfix_append_cons_iff hn).mp hi with hf | hm
      · exact ⟨l ++ [newline], by simp, List.infix_append_of_infix_left hf⟩
      · obtain ⟨other, ho, hi⟩ := ih hm
        exact ⟨other, List.mem_cons_of_mem _ ho, hi⟩
  · rintro ⟨l, hl, hi⟩
    rw [← lines_flatten bs]
    exact hi.trans (List.infix_of_mem_flatten hl)

end Lines
end ControlGroups.Text
