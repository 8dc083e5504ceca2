import ControlGroups.Text.Utf8
import Mathlib.Tactic.SplitIfs

/-! What decoding keeps. Encoded text is read back wherever a character may start, and a character
of ASCII stands in the text exactly where its byte stands among the bytes, however malformed they
are around it. -/
namespace ControlGroups.Text

/-- A byte that no character goes on with. -/
def StartsCharacter (b : UInt8) : Prop := b.toNat < 0x80 ∨ 0xC0 ≤ b.toNat

/-- An open character that only continuation bytes go on with and that lies outside ASCII whatever
they are. -/
structure Pending.Wide (p : Pending) : Prop where
  low_le : 0x80 ≤ p.low.toNat
  high_le : p.high.toNat ≤ 0xBF
  last : p.more ≤ 1 → 2 ≤ p.bits
  more : 1 < p.more → 2 ≤ p.bits * 64 + (p.low.toNat - 0x80)

section Lead
variable {b : UInt8} {p : Pending}

theorem wide_of_lead (h : lead b = some p) : p.Wide := by
  unfold lead at h
  simp only [UInt8.le_iff_toNat_le, UInt8.reduceToNat] at h
  split_ifs at h <;> cases h <;> constructor <;> simp <;> omega

theorem wide_of_startAt (h : (startAt b).2 = some p) : p.Wide := by
  unfold startAt at h
  split at h
  · cases h
  · split at h
    · rename_i hl
      cases h
      exact wide_of_lead hl
    · cases h

/-- Whether a byte goes on with the open character or breaks it off, what is open after it is
wide. -/
theorem wide_of_feed {o : Option Pending} (ho : ∀ q ∈ o, q.Wide) (h : (feed o b).2 = some p) :
    p.Wide := by
  cases o with
  | none => exact wide_of_startAt h
  | some q =>
    have hw : q.Wide := ho q rfl
    rw [feed] at h
    split at h
    · rename_i hb
      have hl : q.low.toNat ≤ b.toNat := UInt8.le_iff_toNat_le.mp hb.1
      split at h
      · cases h
      · rename_i hm
        have hbits := hw.more (by omega)
        have hlow := hw.low_le
        cases h
        constructor <;> simp <;> omega
    · exact wide_of_startAt h

theorem feed_of_startsCharacter {o : Option Pending} (ho : ∀ q ∈ o, q.Wide)
    (hb : StartsCharacter b) : feed o b = (flush o ++ (startAt b).1, (startAt b).2) := by
  cases o with
  | none => rfl
  | some q =>
    have hn : ¬ (q.low ≤ b ∧ b ≤ q.high) := by
      rw [UInt8.le_iff_toNat_le, UInt8.le_iff_toNat_le]
      have hlow := (ho q rfl).low_le
      have hhigh := (ho q rfl).high_le
      rcases hb with hb | hb <;> omega
    simp [feed, hn, flush]

theorem lead_two (h : 0xC2 ≤ b.toNat ∧ b.toNat ≤ 0xDF) :
    lead b = some ⟨1, 0x80, 0xBF, b.toNat - 0xC0⟩ := by
  simp [lead, UInt8.le_iff_toNat_le, h]

theorem lead_three (h : 0xE0 ≤ b.toNat ∧ b.toNat ≤ 0xEF) :
    lead b = some ⟨2, if b.toNat = 0xE0 then 0xA0 else 0x80, if b.toNat = 0xED then 0x9F else 0xBF,
      b.toNat - 0xE0⟩ := by
  have h2 : ¬ (194 ≤ b.toNat ∧ b.toNat ≤ 223) := by omega
  have h3 : 225 ≤ b.toNat ∧ b.toNat ≤ 239 ↔ b.toNat ≠ 224 := by omega
  simp only [lead, UInt8.le_iff_toNat_le, ← UInt8.toNat_inj, UInt8.reduceToNat]
  by_cases hl : b.toNat = 224
  · simp [hl]
  · by_cases hh : b.toNat = 237
    · simp [hh]
    · simp [h2, h3, hl, hh]

theorem lead_four (h : 0xF0 ≤ b.toNat ∧ b.toNat ≤ 0xF4) :
    lead b = some ⟨3, if b.toNat = 0xF0 then 0x90 else 0x80, if b.toNat = 0xF4 then 0x8F else 0xBF,
      b.toNat - 0xF0⟩ := by
  have h2 : ¬ (194 ≤ b.toNat ∧ b.toNat ≤ 223) := by omega
  have h3 : ¬ (225 ≤ b.toNat ∧ b.toNat ≤ 239) := by omega
  have h4 : 241 ≤ b.toNat ∧ b.toNat ≤ 243 ↔ b.toNat ≠ 240 ∧ b.toNat ≠ 244 := by omega
  have h5 : b.toNat ≠ 224 ∧ b.toNat ≠ 237 := by omega
  simp only [lead, UInt8.le_iff_toNat_le, ← UInt8.toNat_inj, UInt8.reduceToNat]
  by_cases hl : b.toNat = 240
  · simp [hl]
  · by_cases hh : b.toNat = 244
    · simp [hh]
    · simp [h2, h3, h4, h5, hl, hh]

end Lead

/-- Bytes that start a character are read the same behind any others. -/
theorem decodeFrom_append {o : Option Pending} (ho : ∀ q ∈ o, q.Wide) {bs more : Bytes}
    (hm : ∀ b ∈ more.head?, StartsCharacter b) :
    decodeFrom o (bs ++ more) = decodeFrom o bs ++ decode more := by
  induction bs generalizing o with
  | nil =>
    cases more with
    | nil => simp [decode, flush]
    | cons b more =>
      rw [List.nil_append, decodeFrom_cons, feed_of_startsCharacter ho (hm b rfl), decodeFrom_nil,
        List.append_assoc]
      rfl
  | cons b bs ih =>
    rw [List.cons_append, decodeFrom_cons, decodeFrom_cons, List.append_assoc,
      ih fun q hq => wide_of_feed ho hq]

theorem decode_append {bs more : Bytes} (hm : ∀ b ∈ more.head?, StartsCharacter b) :
    decode (bs ++ more) = decode bs ++ decode more :=
  decodeFrom_append (by simp) hm

theorem decode_cons_of_lt {b : UInt8} (hb : b.toNat < 0x80) (bs : Bytes) :
    decode (b :: bs) = some (Char.ofNat b.toNat) :: decode bs := by
  have hl : b < 0x80 := UInt8.lt_iff_toNat_lt.mpr hb
  simp [decode, feed, startAt, hl]

theorem decode_cons_of_lead {b : UInt8} {p : Pending} (h : lead b = some p)
    (hb : 0x80 ≤ b.toNat) (bs : Bytes) : decode (b :: bs) = decodeFrom (some p) bs := by
  have hl : ¬ b < 0x80 := by
    rw [UInt8.lt_iff_toNat_lt]
    simpa using hb
  simp [decode, feed, startAt, hl, h]

/-- Six more bits of a character of which others follow. -/
theorem decodeFrom_tail {more bits v : Nat} {low high : UInt8} (hl : low.toNat ≤ v % 64 + 128)
    (hh : v % 64 + 128 ≤ high.toNat) (bs : Bytes) :
    decodeFrom (some ⟨more + 2, low, high, bits⟩) (UInt8.ofNat (v % 64 + 128) :: bs) =
      decodeFrom (some ⟨more + 1, 0x80, 0xBF, bits * 64 + v % 64⟩) bs := by
  have hv : (UInt8.ofNat (v % 64 + 128)).toNat = v % 64 + 128 :=
    UInt8.toNat_ofNat_of_lt (show _ < 256 by omega)
  have hb : low ≤ UInt8.ofNat (v % 64 + 128) ∧ UInt8.ofNat (v % 64 + 128) ≤ high := by
    rw [UInt8.le_iff_toNat_le, UInt8.le_iff_toNat_le, hv]
    exact ⟨hl, hh⟩
  have hn : ¬ more + 2 ≤ 1 := by omega
  rw [decodeFrom_cons, feed, if_pos hb, if_neg hn, hv, Nat.add_sub_cancel]
  rfl

/-- The last six bits of a character. -/
theorem decodeFrom_last (bits v : Nat) (bs : Bytes) :
    decodeFrom (some ⟨1, 0x80, 0xBF, bits⟩) (UInt8.ofNat (v % 64 + 128) :: bs) =
      some (Char.ofNat (bits * 64 + v % 64)) :: decode bs := by
  have hv : (UInt8.ofNat (v % 64 + 128)).toNat = v % 64 + 128 :=
    UInt8.toNat_ofNat_of_lt (show _ < 256 by omega)
  have hb : 0x80 ≤ UInt8.ofNat (v % 64 + 128) ∧ UInt8.ofNat (v % 64 + 128) ≤ 0xBF := by
    rw [UInt8.le_iff_toNat_le, UInt8.le_iff_toNat_le, hv]
    simp only [UInt8.reduceToNat]
    omega
  rw [decodeFrom_cons, feed, if_pos hb, if_pos (Nat.le_refl 1), hv, Nat.add_sub_cancel]
  rfl

theorem decode_two {v : Nat} (h : 0x80 ≤ v ∧ v ≤ 0x7FF) (bs : Bytes) :
    decode (UInt8.ofNat (v / 64 % 32 + 192) :: UInt8.ofNat (v % 64 + 128) :: bs) =
      some (Char.ofNat v) :: decode bs := by
  have h0 : (UInt8.ofNat (v / 64 % 32 + 192)).toNat = v / 64 % 32 + 192 :=
    UInt8.toNat_ofNat_of_lt (show _ < 256 by omega)
  have hs : (v / 64 % 32 + 192 - 192) * 64 + v % 64 = v := by omega
  rw [decode_cons_of_lead (lead_two (by omega)) (by omega), decodeFrom_last, h0, hs]

theorem decode_three {v : Nat} (h : 0x800 ≤ v ∧ v ≤ 0xFFFF) (hv : v < 0xD800 ∨ 0xDFFF < v)
    (bs : Bytes) :
    decode (UInt8.ofNat (v / 4096 % 16 + 224) :: UInt8.ofNat (v / 64 % 64 + 128) ::
      UInt8.ofNat (v % 64 + 128) :: bs) = some (Char.ofNat v) :: decode bs := by
  have h0 : (UInt8.ofNat (v / 4096 % 16 + 224)).toNat = v / 4096 % 16 + 224 :=
    UInt8.toNat_ofNat_of_lt (show _ < 256 by omega)
  have hs : ((v / 4096 % 16 + 224 - 224) * 64 + v / 64 % 64) * 64 + v % 64 = v := by omega
  rw [decode_cons_of_lead (lead_three (by omega)) (by omega), h0, decodeFrom_tail,
    decodeFrom_last, hs]
  -- the second byte keeps out overlong forms and surrogates
  · split_ifs <;> simp only [UInt8.reduceToNat] <;> omega
  · split_ifs <;> simp only [UInt8.reduceToNat] <;> omega

theorem decode_four {v : Nat} (h : 0xFFFF < v ∧ v < 0x110000) (bs : Bytes) :
    decode (UInt8.ofNat (v / 262144 % 8 + 240) :: UInt8.ofNat (v / 4096 % 64 + 128) ::
      UInt8.ofNat (v / 64 % 64 + 128) :: UInt8.ofNat (v % 64 + 128) :: bs) =
      some (Char.ofNat v) :: decode bs := by
  have h0 : (UInt8.ofNat (v / 262144 % 8 + 240)).toNat = v / 262144 % 8 + 240 :=
    UInt8.toNat_ofNat_of_lt (show _ < 256 by omega)
  have h2 : 0x80 ≤ v / 64 % 64 + 128 ∧ v / 64 % 64 + 128 ≤ 0xBF := by omega
  have hs : (((v / 262144 % 8 + 240 - 240) * 64 + v / 4096 % 64) * 64 + v / 64 % 64) * 64 +
      v % 64 = v := by omega
  rw [decode_cons_of_lead (lead_four (by omega)) (by omega), h0, decodeFrom_tail,
    decodeFrom_tail h2.1 h2.2, decodeFrom_last, hs]
  -- the second byte keeps out overlong forms and what lies past the last code point
  · split_ifs <;> simp only [UInt8.reduceToNat] <;> omega
  · split_ifs <;> simp only [UInt8.reduceToNat] <;> omega

/-- The bytes that encode a character are read as that character, whatever follows them. -/
theorem decode_encodeChar_append (c : Char) (bs : Bytes) :
    decode (String.utf8EncodeChar c ++ bs) = some c :: decode bs := by
  have hv : c.val.toNat < 0xD800 ∨ (0xDFFF < c.val.toNat ∧ c.val.toNat < 0x110000) := c.valid
  have hc : Char.ofNat c.val.toNat = c := Char.ofNat_toNat c
  rw [String.utf8EncodeChar]
  generalize c.val.toNat = v at hv hc
  rw [← hc]
  split_ifs with h1 h2 h3
  · have h0 : (UInt8.ofNat v).toNat = v := UInt8.toNat_ofNat_of_lt (show _ < 256 by omega)
    rw [List.singleton_append, decode_cons_of_lt (by omega), h0]
  · exact decode_two (by omega) bs
  · exact decode_three (by omega) (by omega) bs
  · exact decode_four (by omega) bs

@[simp] theorem encode_empty : encode "" = [] := rfl

@[simp] theorem encode_append (s t : String) : encode (s ++ t) = encode s ++ encode t := by
  simp [encode]

/-- Text is read back from the bytes that encode it. -/
theorem decode_encode_append (s : String) (bs : Bytes) :
    decode (encode s ++ bs) = s.toList.map some ++ decode bs := by
  rw [encode]
  induction s.toList with
  | nil => rfl
  | cons c cs ih =>
    rw [List.flatMap_cons, List.append_assoc, decode_encodeChar_append, ih, List.map_cons,
      List.cons_append]

theorem decode_encode (s : String) : decode (encode s) = s.toList.map some := by
  have h := decode_encode_append s []
  rwa [List.append_nil, show decode [] = [] from rfl, List.append_nil] at h

theorem startsCharacter_of_mem_head?_encodeChar {c : Char} {b : UInt8}
    (h : b ∈ (String.utf8EncodeChar c).head?) : StartsCharacter b := by
  rw [String.utf8EncodeChar] at h
  generalize c.val.toNat = v at h
  unfold StartsCharacter
  split_ifs at h <;> cases h <;> simp only [UInt8.toNat_ofNat'] <;> omega

theorem startsCharacter_of_mem_head?_encode {s : String} {b : UInt8}
    (h : b ∈ (encode s).head?) : StartsCharacter b := by
  rw [encode] at h
  cases hs : s.toList with
  | nil =>
    rw [hs] at h
    cases h
  | cons c cs =>
    have hne : String.utf8EncodeChar c ≠ [] := String.utf8EncodeChar_ne_nil
    obtain ⟨first, others, hf⟩ := List.exists_cons_of_ne_nil hne
    rw [hs, List.flatMap_cons, hf] at h
    exact startsCharacter_of_mem_head?_encodeChar (by rwa [hf])

/-- A byte that completes nothing leaves a character open. -/
theorem feed_isSome {o : Option Pending} {b : UInt8} (h : (feed o b).1 = []) :
    (feed o b).2.isSome := by
  have hs : (startAt b).1 = [] → (startAt b).2.isSome := by
    unfold startAt
    split_ifs
    · simp
    · split <;> simp
  cases o with
  | none => exact hs h
  | some q =>
    rw [feed] at h ⊢
    split_ifs with hb hm
    · simp [hb, hm] at h
    · rfl
    · simp [hb] at h

theorem decodeFrom_eq_nil_iff {o : Option Pending} {bs : Bytes} :
    decodeFrom o bs = [] ↔ o = none ∧ bs = [] := by
  induction bs generalizing o with
  | nil => cases o <;> simp [flush]
  | cons b bs ih =>
    rw [decodeFrom_cons, List.append_eq_nil_iff, ih]
    constructor
    · rintro ⟨hf, hn, -⟩
      have ho := feed_isSome hf
      rw [hn] at ho
      cases ho
    · rintro ⟨-, h⟩
      cases h

section Ascii
variable {c : Char} {bs : Bytes}

theorem eq_of_ofNat_eq {v : Nat} (hc : 0 < c.toNat) (h : Char.ofNat v = c) : v = c.toNat := by
  subst h
  by_cases hv : v.isValidChar
  · have ho : Char.ofNat v = Char.ofNatAux v hv := dif_pos hv
    rw [ho]
    rfl
  · have ho : Char.ofNat v = '\x00' := dif_neg hv
    rw [ho] at hc
    exact absurd hc (by decide)

/-- A byte completes a character of ASCII only if it is its byte. -/
theorem eq_of_mem_startAt (hc : 0 < c.toNat) {b : UInt8} (h : some c ∈ (startAt b).1) :
    b.toNat = c.toNat := by
  unfold startAt at h
  split at h
  · exact eq_of_ofNat_eq hc (Option.some.inj (List.mem_singleton.mp h)).symm
  · split at h
    · cases h
    · cases List.mem_singleton.mp h

theorem eq_of_mem_feed (hc : 0 < c.toNat ∧ c.toNat < 0x80) {o : Option Pending}
    (ho : ∀ q ∈ o, q.Wide) {b : UInt8} (h : some c ∈ (feed o b).1) : b.toNat = c.toNat := by
  cases o with
  | none => exact eq_of_mem_startAt hc.1 h
  | some q =>
    rw [feed] at h
    split at h
    · split at h
      · rename_i hm
        have hv := eq_of_ofNat_eq hc.1 (Option.some.inj (List.mem_singleton.mp h)).symm
        have hbits := (ho q rfl).last hm
        omega
      · cases h
    · rcases List.mem_cons.mp h with h | h
      · cases h
      · exact eq_of_mem_startAt hc.1 h

theorem mem_of_some_mem_decodeFrom (hc : 0 < c.toNat ∧ c.toNat < 0x80) {o : Option Pending}
    (ho : ∀ q ∈ o, q.Wide) (h : some c ∈ decodeFrom o bs) : UInt8.ofNat c.toNat ∈ bs := by
  induction bs generalizing o with
  | nil => cases o <;> simp [flush] at h
  | cons b bs ih =>
    rw [decodeFrom_cons] at h
    rcases List.mem_append.mp h with h | h
    · have hb := eq_of_mem_feed hc ho h
      rw [← hb, UInt8.ofNat_toNat]
      exact List.mem_cons_self
    · exact List.mem_cons_of_mem b (ih (fun q hq => wide_of_feed ho hq) h)

/-- A character of ASCII, the one of code zero apart, is read exactly where its byte stands. -/
theorem some_mem_decode_iff (hc : 0 < c.toNat ∧ c.toNat < 0x80) :
    some c ∈ decode bs ↔ UInt8.ofNat c.toNat ∈ bs := by
  constructor
  · exact mem_of_some_mem_decodeFrom hc (by simp)
  · intro h
    obtain ⟨before, after, rfl⟩ := List.append_of_mem h
    have hb : (UInt8.ofNat c.toNat).toNat = c.toNat :=
      UInt8.toNat_ofNat_of_lt (show _ < 256 by omega)
    rw [decode_append fun b hm => .inl (by cases hm; omega), decode_cons_of_lt (by omega), hb,
      Char.ofNat_toNat]
    simp

end Ascii
theorem mapM_map_some (cs : List Char) : (cs.map some).mapM id = some cs := by
  induction cs with
  | nil => rfl
  | cons c cs ih => simp [ih]

theorem decode?_encode (s : String) : decode? (encode s) = some s := by
  rw [decode?, decode_encode, mapM_map_some, Option.map_some, String.ofList_toList]

/-- Text in front of some bytes, and text behind them, is decoded apart from them. -/
theorem decode?_encode_append (u : String) (l : Bytes) (v : String) :
    decode? (encode u ++ l ++ encode v) = (decode? l).map (u ++ · ++ v) := by
  have hd : decode (encode u ++ l ++ encode v) =
      u.toList.map some ++ (decode l ++ v.toList.map some) := by
    rw [List.append_assoc, decode_encode_append,
      decode_append fun b hb => startsCharacter_of_mem_head?_encode hb, decode_encode]
  rw [decode?, decode?, hd, List.mapM_append, List.mapM_append, mapM_map_some, mapM_map_some]
  cases (decode l).mapM id with
  | none => rfl
  | some cs => simp [String.append_assoc]

end ControlGroups.Text
