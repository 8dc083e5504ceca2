import Mathlib.Data.List.Nodup
import ControlGroups.Proofs.KeyTable.Ending
import ControlGroups.Proofs.Text.Blank

/-! The order of the lines of a table. Two orders of the same lines may be read to different ends,
but where each key heads at most one line that carries a value, the lines behind the one that
completes the keys ask for nothing. So what is stored are the numbers of all lines, whether or not
they are reached. -/
namespace ControlGroups.KeyTable

variable {α : Type} {t : KeyTable α} {key value text : String} {l : Bytes}
  {ls ms before taken left : List Bytes} {calls more : List (String × Nat)}
  {call : Option (String × Nat)}

/-- Whether a text carries a value for a key: its first word is the key, with or without the suffix,
and there is a second word. -/
def heads (t : KeyTable α) (key text : String) : Bool :=
  match Text.words text with
  | word :: _ :: _ => Text.dropTail t.suffix word == key
  | _ => false

def headsLine (t : KeyTable α) (key : String) (l : Bytes) : Bool :=
  (Text.decode? l).any (t.heads key)

/-- Lines of text of which each key heads at most one that carries a value. -/
structure HeadedOnce (t : KeyTable α) (ls : List Bytes) : Prop where
  decoded : ∀ l ∈ ls, ∃ text, Text.decode? l = some text
  countP_le_one : ∀ key ∈ t.keys, ls.countP (t.headsLine key) ≤ 1

/-- All calls that some lines ask for, whether or not reading gets to them. -/
inductive Demands (t : KeyTable α) : List Bytes → List (String × Nat) → Prop
  | nil : t.Demands [] []
  | cons {l : Bytes} {ls : List Bytes} {call : Option (String × Nat)}
      {calls : List (String × Nat)} (asks : t.Asks l call) (others : t.Demands ls calls) :
      t.Demands (l :: ls) (call.toList ++ calls)

/-- Calls of different keys come to the same in either order. -/
def Commutes (t : KeyTable α) : Prop :=
  ∀ a b value, a.1 ≠ b.1 → t.handle (t.handle value a) b = t.handle (t.handle value b) a

/-- Two readings that give one value, or that are both refused for a malformed number. -/
inductive EndAlike : Except ContentError α → Except ContentError α → Prop
  | value (value : α) : EndAlike (.ok value) (.ok value)
  | malformed (key value : String) (line : Nat) (cause : Text.NumeralError)
      (key' value' : String) (line' : Nat) (cause' : Text.NumeralError) :
      EndAlike (.error (.invalidKeyValue key value line cause))
        (.error (.invalidKeyValue key' value' line' cause'))

section OneLine

theorem Entry.unique {key' value' : String} (h : t.Entry text key value)
    (h' : t.Entry text key' value') : key = key' ∧ value = value' := by
  obtain ⟨word, more, hw, hs, -⟩ := h
  obtain ⟨word', more', hw', hs', -⟩ := h'
  cases hw.symm.trans hw'
  exact ⟨(Text.stripped_iff.mp hs).symm.trans (Text.stripped_iff.mp hs'), rfl⟩

theorem heads_iff (hk : key ∈ t.keys) :
    t.heads key text = true ↔ ∃ value, t.Entry text key value := by
  constructor
  · unfold heads
    split
    · rename_i word value more hw
      intro h
      exact ⟨value, word, more, hw, Text.stripped_iff.mpr (eq_of_beq h), hk⟩
    · intro h
      cases h
  · rintro ⟨value, word, more, hw, hs, -⟩
    simp [heads, hw, Text.stripped_iff.mp hs]

theorem headsLine_of_decode (h : Text.decode? l = some text) :
    t.headsLine key l = t.heads key text := by
  rw [headsLine, h, Option.any_some]

/-- Where there is an entry, a line can only ask for the call of its number. -/
theorem Asks.of_entry (h : t.Asks l call) (decoded : Text.decode? l = some text)
    (entry : t.Entry text key value) :
    ∃ n, Text.readNat64 value = .ok n ∧ call = some (key, n) := by
  cases h with
  | nothing decoded' other =>
    cases decoded.symm.trans decoded'
    exact absurd entry (other _ _)
  | number decoded' entry' number =>
    cases decoded.symm.trans decoded'
    obtain ⟨rfl, rfl⟩ := entry.unique entry'
    exact ⟨_, number, rfl⟩

theorem Asks.unique {call' : Option (String × Nat)} (h : t.Asks l call) (h' : t.Asks l call') :
    call = call' := by
  cases h with
  | nothing decoded other =>
    cases h' with
    | nothing decoded' other' => rfl
    | number decoded' entry' number' =>
      cases decoded.symm.trans decoded'
      exact absurd entry' (other _ _)
  | number decoded entry number =>
    obtain ⟨n, hn, rfl⟩ := h'.of_entry decoded entry
    cases number.symm.trans hn
    rfl

theorem not_asks_of_malformed {cause : Text.NumeralError} (decoded : Text.decode? l = some text)
    (entry : t.Entry text key value) (malformed : Text.readNat64 value = .error cause) :
    ¬ t.Asks l call := by
  intro h
  obtain ⟨n, hn, -⟩ := h.of_entry decoded entry
  cases malformed.symm.trans hn

theorem asks_none (decoded : Text.decode? l = some text)
    (h : ∀ key ∈ t.keys, t.headsLine key l = false) : t.Asks l none := by
  refine .nothing decoded ?_
  intro key value entry
  have hh : t.heads key text = true := (heads_iff entry.mem_keys).mpr ⟨value, entry⟩
  rw [← headsLine_of_decode decoded, h key entry.mem_keys] at hh
  cases hh

/-- A line asks for a call of a key exactly where the key heads it. -/
theorem Asks.count_eq (h : t.Asks l call) (hk : key ∈ t.keys) :
    (call.toList.map Prod.fst).count key = if t.headsLine key l then 1 else 0 := by
  cases h with
  | nothing decoded other =>
    have hn : t.headsLine key l ≠ true := by
      rw [headsLine_of_decode decoded, Ne, heads_iff hk]
      rintro ⟨value, entry⟩
      exact other _ _ entry
    rw [if_neg hn]
    rfl
  | @number text key' value n decoded entry number =>
    have hh : t.headsLine key l = true ↔ key' = key := by
      rw [headsLine_of_decode decoded, heads_iff hk]
      constructor
      · rintro ⟨value', entry'⟩
        exact (entry.unique entry').1
      · rintro rfl
        exact ⟨value, entry⟩
    simp [hh, List.count_singleton]

end OneLine

section AllLines

theorem Demands.append (h : t.Demands ls calls) (hm : t.Demands ms more) :
    t.Demands (ls ++ ms) (calls ++ more) := by
  induction h with
  | nil => exact hm
  | cons asks others ih =>
    rw [List.append_assoc]
    exact .cons asks ih

theorem demands_singleton (h : t.Asks l call) : t.Demands [l] call.toList := by
  have hd := Demands.cons h .nil
  rwa [List.append_nil] at hd

theorem demands_nil (h : ∀ l ∈ ls, t.Asks l none) : t.Demands ls [] := by
  induction ls with
  | nil => exact .nil
  | cons l ls ih =>
    obtain ⟨hl, ho⟩ := List.forall_mem_cons.mp h
    exact .cons hl (ih ho)

theorem Passed.demands (h : t.Passed before calls) : t.Demands before calls := by
  induction h with
  | nil => exact .nil
  | snoc passed asks fresh incomplete ih => exact ih.append (demands_singleton asks)

theorem Demands.exists_asks (h : t.Demands ls calls) (hl : l ∈ ls) : ∃ call, t.Asks l call := by
  induction h with
  | nil => cases hl
  | cons asks others ih =>
    rcases List.mem_cons.mp hl with rfl | hl
    · exact ⟨_, asks⟩
    · exact ih hl

theorem Demands.unique (h : t.Demands ls calls) (h' : t.Demands ls more) : calls = more := by
  induction h generalizing more with
  | nil =>
    cases h'
    rfl
  | cons asks others ih =>
    cases h' with
    | cons asks' others' => rw [asks.unique asks', ih others']

/-- Lines in another order ask for the same calls in another order. -/
theorem Demands.exists_perm (h : t.Demands ls calls) (hp : ls.Perm ms) :
    ∃ more, calls.Perm more ∧ t.Demands ms more := by
  induction hp generalizing calls with
  | nil => exact ⟨calls, .rfl, h⟩
  | cons l hp ih =>
    cases h with
    | cons asks others =>
      obtain ⟨more, hc, hd⟩ := ih others
      exact ⟨_, hc.append_left _, .cons asks hd⟩
  | swap l m ls =>
    cases h with
    | cons asks others =>
      cases others with
      | cons asks' others =>
        refine ⟨_, ?_, .cons asks' (.cons asks others)⟩
        rw [← List.append_assoc, ← List.append_assoc]
        exact List.perm_append_comm.append_right _
  | trans hp hp' ih ih' =>
    obtain ⟨more, hc, hd⟩ := ih h
    obtain ⟨others, hc', hd'⟩ := ih' hd
    exact ⟨others, hc.trans hc', hd'⟩

theorem Demands.mem_keys (h : t.Demands ls calls) (hm : key ∈ calls.map Prod.fst) :
    key ∈ t.keys := by
  induction h with
  | nil => cases hm
  | @cons l ls call calls asks others ih =>
    rw [List.map_append, List.mem_append] at hm
    rcases hm with hm | hm
    · cases call with
      | none => cases hm
      | some c =>
        rw [Option.toList_some, List.map_singleton, List.mem_singleton] at hm
        exact hm ▸ asks.mem_keys
    · exact ih hm

/-- A key is called as often as it heads a line. -/
theorem Demands.count_eq (h : t.Demands ls calls) (hk : key ∈ t.keys) :
    (calls.map Prod.fst).count key = ls.countP (t.headsLine key) := by
  induction h with
  | nil => rfl
  | cons asks others ih =>
    rw [List.map_append, List.count_append, asks.count_eq hk, ih, List.countP_cons, Nat.add_comm]

end AllLines

section Once

theorem HeadedOnce.perm (h : t.HeadedOnce ls) (hp : ls.Perm ms) : t.HeadedOnce ms where
  decoded l hl := h.decoded l (hp.mem_iff.mpr hl)
  countP_le_one key hk := hp.countP_eq (t.headsLine key) ▸ h.countP_le_one key hk

theorem HeadedOnce.of_append (h : t.HeadedOnce (ls ++ ms)) : t.HeadedOnce ls where
  decoded l hl := h.decoded l (List.mem_append_left ms hl)
  countP_le_one key hk := by
    have hc := h.countP_le_one key hk
    rw [List.countP_append] at hc
    omega

theorem HeadedOnce.nodup (h : t.HeadedOnce ls) (hd : t.Demands ls calls) :
    (calls.map Prod.fst).Nodup := by
  rw [List.nodup_iff_count_eq_one]
  intro key hm
  have hk := hd.mem_keys hm
  have hp := List.count_pos_iff.mpr hm
  have hc := h.countP_le_one key hk
  rw [← hd.count_eq hk] at hc
  omega

/-- Behind lines that have all keys no line asks for anything. -/
theorem HeadedOnce.demands_nil (h : t.HeadedOnce (taken ++ left)) (hd : t.Demands taken calls)
    (hk : ∀ key ∈ t.keys, key ∈ calls.map Prod.fst) : t.Demands left [] := by
  refine KeyTable.demands_nil fun l hl => ?_
  obtain ⟨text, decoded⟩ := h.decoded l (List.mem_append_right taken hl)
  refine asks_none decoded fun key hm => ?_
  have hp := List.count_pos_iff.mpr (hk key hm)
  have hc := h.countP_le_one key hm
  rw [List.countP_append, ← hd.count_eq hm] at hc
  have hz : left.countP (t.headsLine key) = 0 := by omega
  simpa using List.countP_eq_zero.mp hz l hl

/-- Reading gives what the calls of all lines make, wherever it ends, or some line has a malformed
number. -/
theorem Ending.of_headedOnce {answer : Except ContentError α}
    (h : t.Ending none taken left answer) (ho : t.HeadedOnce (taken ++ left)) :
    (∃ calls, t.Demands (taken ++ left) calls ∧ answer = .ok (t.apply calls)) ∨
    (∀ calls, ¬ t.Demands (taken ++ left) calls) ∧
      ∃ key value line cause, answer = .error (.invalidKeyValue key value line cause) := by
  cases h with
  | through passed =>
    rw [List.append_nil]
    exact .inl ⟨_, passed.demands, rfl⟩
  | complete passed asks fresh complete =>
    -- every key has been called, so the lines that are left would not change the calls
    have hd := passed.demands.append (demands_singleton asks)
    have ha := hd.append (ho.demands_nil hd complete.2)
    rw [List.append_nil] at ha
    exact .inl ⟨_, ha, rfl⟩
  | @undecodable _ before left l calls passed undecodable =>
    obtain ⟨text, decoded⟩ := ho.decoded l (by simp)
    cases undecodable.symm.trans decoded
  | malformed passed decoded entry malformed =>
    refine .inr ⟨fun calls hd => ?_, _, _, _, _, rfl⟩
    obtain ⟨call, asks⟩ := hd.exists_asks (List.mem_append_left _ List.mem_concat_self)
    exact not_asks_of_malformed decoded entry malformed asks
  | repeated passed asks unrepeatable seen =>
    -- the key would head two of the lines taken
    have hn := ho.of_append.nodup (passed.demands.append (demands_singleton asks))
    rw [List.map_append, List.nodup_append] at hn
    exact absurd rfl (hn.2.2 _ seen _ (by simp))

theorem read_of_headedOnce {bs : Bytes} (ho : t.HeadedOnce (Text.lines bs)) :
    (∃ calls, t.Demands (Text.lines bs) calls ∧ (t.read bs).1 = .ok (t.apply calls)) ∨
    (∀ calls, ¬ t.Demands (Text.lines bs) calls) ∧
      ∃ key value line cause, (t.read bs).1 = .error (.invalidKeyValue key value line cause) := by
  obtain ⟨taken, hl, h⟩ := exists_ending_read t bs
  rw [hl] at ho ⊢
  exact h.of_headedOnce ho

end Once

section Order

theorem apply_eq_of_perm (hc : t.Commutes) (hn : (calls.map Prod.fst).Nodup)
    (hp : calls.Perm more) : t.apply calls = t.apply more := by
  refine hp.foldl_eq' ?_ t.start
  intro a ha b hb value
  by_cases hk : a.1 = b.1
  · rw [List.inj_on_of_nodup_map hn ha hb hk]
  · exact hc a b value hk

/-- The same lines in another order are read alike. -/
theorem endAlike_of_perm {bs bs' : Bytes} (hc : t.Commutes) (ho : t.HeadedOnce (Text.lines bs))
    (hp : (Text.lines bs).Perm (Text.lines bs')) : EndAlike (t.read bs).1 (t.read bs').1 := by
  rcases read_of_headedOnce ho with ⟨calls, hd, hr⟩ | ⟨hn, _, _, _, _, hr⟩
  · obtain ⟨more, hm, hd'⟩ := hd.exists_perm hp
    rcases read_of_headedOnce (ho.perm hp) with ⟨others, hu, hr'⟩ | ⟨hn, -⟩
    · rw [hr, hr', ← hd'.unique hu, apply_eq_of_perm hc (ho.nodup hd) hm]
      exact .value _
    · exact absurd hd' (hn more)
  · rcases read_of_headedOnce (ho.perm hp) with ⟨others, hu, -⟩ | ⟨-, _, _, _, _, hr'⟩
    · obtain ⟨more, -, hd⟩ := hu.exists_perm hp.symm
      exact absurd hd (hn more)
    · rw [hr, hr']
      exact .malformed ..

end Order

section Written
variable {lines lines' : List String}

/-- A text carries a value for a key with its newline as without it. -/
theorem headsLine_encode (key text : String) :
    t.headsLine key (Text.encode (text ++ "\n")) = t.heads key text := by
  rw [headsLine_of_decode (Text.decode?_encode _), heads, heads, Text.words_append_newline]

theorem headedOnce_writeLines (hn : ∀ line ∈ lines, '\n' ∉ line.toList)
    (h : ∀ key ∈ t.keys, lines.countP (t.heads key) ≤ 1) :
    t.HeadedOnce (Text.lines (Text.encode (Text.writeLines lines))) := by
  rw [Text.lines_encode_writeLines hn]
  constructor
  · intro l hl
    obtain ⟨line, -, rfl⟩ := List.mem_map.mp hl
    exact ⟨_, Text.decode?_encode _⟩
  · intro key hk
    rw [List.countP_map]
    simpa only [Function.comp_def, headsLine_encode] using h key hk

theorem endAlike_writeLines (hc : t.Commutes) (hn : ∀ line ∈ lines, '\n' ∉ line.toList)
    (h : ∀ key ∈ t.keys, lines.countP (t.heads key) ≤ 1) (hp : lines.Perm lines') :
    EndAlike (t.read (Text.encode (Text.writeLines lines))).1
      (t.read (Text.encode (Text.writeLines lines'))).1 := by
  refine endAlike_of_perm hc (headedOnce_writeLines hn h) ?_
  have hn' : ∀ line ∈ lines', '\n' ∉ line.toList := fun line hl => hn line (hp.mem_iff.mpr hl)
  rw [Text.lines_encode_writeLines hn, Text.lines_encode_writeLines hn']
  exact hp.map _

end Written
end ControlGroups.KeyTable
