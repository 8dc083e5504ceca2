import Mathlib.Algebra.Group.Int.Defs
import Mathlib.Data.List.Induction
import Mathlib.Order.MinMax
import ControlGroups.Machine.Memory
import ControlGroups.Proofs.KeyTable.Stored

/-! The memory of a machine from its summary. Both numbers come from one reading of the file, and
neither the products nor the difference leave the range of a word. -/
namespace ControlGroups.MemoryInfo

variable {node : Node} {calls : List (String × Nat)} {fs : FileSystem} {path : Path}
  {total : Nat} {free available : Option Nat} {info : MemoryInfo}

/-- The numbers that reading a summary stores, each where its key was met with one. -/
def Stored (node : Node) (total free available : Option Nat) : Prop :=
  ∃ calls, table.Stores node calls ∧ calls.lookup "MemTotal" = total ∧
    calls.lookup "MemFree" = free ∧ calls.lookup "MemAvailable" = available

/-- The summary that some stored numbers make. -/
def ofStored (total free available : Option Nat) : MemoryInfo :=
  ⟨ofKibibytes (total.getD 0), ofKibibytes (free.getD 0), available.map ofKibibytes⟩

theorem apply_eq_ofStored (h : (calls.map Prod.fst).Nodup) : table.apply calls =
    ofStored (calls.lookup "MemTotal") (calls.lookup "MemFree") (calls.lookup "MemAvailable") := by
  induction calls using List.reverseRecOn with
  | nil => rfl
  | append_singleton calls call ih =>
    obtain ⟨key, n⟩ := call
    rw [List.map_append, List.nodup_append] at h
    obtain ⟨hc, -, hd⟩ := h
    have hk : calls.lookup key = none := KeyTable.lookup_eq_none_of_not_mem fun hm =>
      hd key hm key (by simp) rfl
    have ha : table.apply (calls ++ [(key, n)]) = table.handle (table.apply calls) (key, n) := by
      rw [KeyTable.apply, List.foldl_append]
      rfl
    rw [ha, ih hc, List.lookup_append, List.lookup_append, List.lookup_append]
    by_cases ht : key = "MemTotal"
    · subst ht
      simp [KeyTable.handle, table, ofStored, hk, List.lookup_cons]
    by_cases hf : key = "MemFree"
    · subst hf
      simp [KeyTable.handle, table, ofStored, hk, List.lookup_cons]
    by_cases hm : key = "MemAvailable"
    · subst hm
      simp [KeyTable.handle, table, ofStored, hk, List.lookup_cons]
    · have hu : table.handle (ofStored (calls.lookup "MemTotal") (calls.lookup "MemFree")
          (calls.lookup "MemAvailable")) (key, n) = _ :=
        KeyTable.handle_of_not_mem (by simp [KeyTable.keys, table, ht, hf, hm]) _ n
      have ho (other : String) (h : key ≠ other) : [(key, n)].lookup other = none :=
        KeyTable.lookup_eq_none_of_not_mem (by simpa using Ne.symm h)
      rw [hu, ho _ ht, ho _ hf, ho _ hm, Option.or_none, Option.or_none, Option.or_none]

/-- A summary is read exactly where it stores some numbers, and it is what they make. -/
theorem readNode_eq_ok_iff : table.readNode node = .ok info ↔ ∃ total free available,
    Stored node total free available ∧ info = ofStored total free available := by
  rw [KeyTable.readNode_eq_ok_iff_stores]
  constructor
  · rintro ⟨calls, h, rfl⟩
    exact ⟨_, _, _, ⟨calls, h, rfl, rfl, rfl⟩, apply_eq_ofStored (h.reached.nodup rfl)⟩
  · rintro ⟨_, _, _, ⟨calls, h, rfl, rfl, rfl⟩, rfl⟩
    exact ⟨calls, h, (apply_eq_ofStored (h.reached.nodup rfl)).symm⟩

/-- A file at a path that stores some numbers. -/
def StoredAt (fs : FileSystem) (path : Path) (total free available : Option Nat) : Prop :=
  ∃ node, fs.find path.clean = .ok node ∧ Stored node total free available

theorem readAt_of_find (h : fs.find path.clean = .ok node) : readAt fs path =
    match table.readNode node with
    | .error e => .error (.content path.clean e)
    | .ok info => if info.total = 0 then .error (.unexpectedEnd path.clean) else .ok info := by
  cases hr : table.readNode node <;> simp only [readAt, h, hr]

theorem total_ofStored_eq_zero_iff {total free available : Option Nat} :
    (ofStored total free available).total = 0 ↔ total.getD 0 = 0 := by
  simp only [ofStored, ofKibibytes, Text.maxNat64]
  omega

theorem StoredAt.readAt_eq {total free available : Option Nat}
    (h : StoredAt fs path total free available) : readAt fs path =
      if total.getD 0 = 0 then .error (.unexpectedEnd path.clean)
      else .ok (ofStored total free available) := by
  obtain ⟨node, hf, hs⟩ := h
  have hr : table.readNode node = .ok (ofStored total free available) :=
    readNode_eq_ok_iff.mpr ⟨_, _, _, hs, rfl⟩
  simp only [readAt_of_find hf, hr, total_ofStored_eq_zero_iff]

/-- A file stores some numbers, or it is reported for what is wrong with it. -/
theorem readAt_cases (fs : FileSystem) (path : Path) :
    (∃ total free available, StoredAt fs path total free available) ∨
      ∃ e, readAt fs path = .error e ∧ ∀ p, e ≠ .unexpectedEnd p := by
  cases hf : fs.find path.clean with
  | error cause => exact .inr ⟨.fileOpen path.clean cause, by simp only [readAt, hf], by simp⟩
  | ok node =>
    cases hr : table.readNode node with
    | error e =>
      exact .inr ⟨.content path.clean e, by simp only [readAt_of_find hf, hr], by simp⟩
    | ok info =>
      obtain ⟨total, free, available, hs, -⟩ := readNode_eq_ok_iff.mp hr
      exact .inl ⟨total, free, available, node, hf, hs⟩

section Range

theorem clamp_ofKibibytes (n : Nat) :
    clamp (ofKibibytes n) = min (1024 * (n : Int)) (2 ^ 63 - 1) := by
  simp only [clamp, ofKibibytes, Text.maxNat64, Text.maxInt64]
  omega

/-- The memory that is not in use: what is available, or else what is free, or nothing. -/
theorem used_ofStored (total : Nat) (free available : Option Nat) :
    (ofStored (some total) free available).used =
      ofKibibytes total - ofKibibytes (available.getD (free.getD 0)) := by
  cases available <;> rfl

theorem clamp_used_ofStored (total : Nat) (free available : Option Nat) :
    clamp (ofStored (some total) free available).used =
      min (max 0 (min (1024 * (total : Int)) (2 ^ 64 - 1) -
        min (1024 * (available.getD (free.getD 0) : Int)) (2 ^ 64 - 1))) (2 ^ 63 - 1) := by
  rw [used_ofStored]
  simp only [clamp, ofKibibytes, Text.maxNat64, Text.maxInt64]
  omega

theorem clamp_bounds (info : MemoryInfo) (h : info.total ≠ 0) :
    0 < clamp info.total ∧ clamp info.total ≤ 2 ^ 63 - 1 ∧
      0 ≤ clamp info.used ∧ clamp info.used ≤ clamp info.total := by
  have hu := clamp_mono info.used_le_total
  refine ⟨?_, ?_, Int.natCast_nonneg _, hu⟩
  · simp only [clamp, Text.maxInt64]
    omega
  · simp only [clamp, Text.maxInt64]
    omega

end Range

theorem totalMemory_eq_error_iff {e : Error} :
    totalMemory fs path = .error e ↔ readAt fs path = .error e := map_eq_error_iff

theorem usedMemory_eq_error_iff {e : Error} :
    usedMemory fs path = .error e ↔ readAt fs path = .error e := map_eq_error_iff

theorem readAt_eq_ok_iff : readAt fs path = .ok info ↔ ∃ total free available,
    StoredAt fs path (some total) free available ∧ total ≠ 0 ∧
      info = ofStored (some total) free available := by
  constructor
  · intro h
    rcases readAt_cases fs path with ⟨total, free, available, hs⟩ | ⟨e, he, -⟩
    · rw [hs.readAt_eq] at h
      split at h
      · cases h
      · rename_i hz
        cases total with
        | none => exact absurd rfl hz
        | some total => exact ⟨total, free, available, hs, hz, (Except.ok.inj h).symm⟩
    · cases he.symm.trans h
  · rintro ⟨total, free, available, hs, hz, rfl⟩
    rw [hs.readAt_eq, Option.getD_some, if_neg hz]

theorem readAt_eq_unexpectedEnd_iff {p : Path} : readAt fs path = .error (.unexpectedEnd p) ↔
    p = path.clean ∧
      ∃ total free available, StoredAt fs path total free available ∧ total.getD 0 = 0 := by
  constructor
  · intro h
    rcases readAt_cases fs path with ⟨total, free, available, hs⟩ | ⟨e, he, hne⟩
    · rw [hs.readAt_eq] at h
      split at h
      · rename_i hz
        cases h
        exact ⟨rfl, total, free, available, hs, hz⟩
      · cases h
    · cases he.symm.trans h
      exact absurd rfl (hne p)
  · rintro ⟨rfl, total, free, available, hs, hz⟩
    rw [hs.readAt_eq, if_pos hz]

/-- The total and the memory in use come from one summary, so they fail alike or are both there.
They are the products and the difference in whole numbers, cut off where a word ends: products at
the largest unsigned word, the answers at the largest signed one and the difference at zero. The
total is positive and no less than what is in use, and a summary with no total or a total of zero
counts as broken off. -/
theorem totalMemory_usedMemory (fs : FileSystem) (path : Path) :
    (∀ e, totalMemory fs path = .error e ↔ usedMemory fs path = .error e) ∧
    (∀ t u, totalMemory fs path = .ok t ∧ usedMemory fs path = .ok u ↔
      ∃ (total : Nat) (free available : Option Nat),
        StoredAt fs path (some total) free available ∧ total ≠ 0 ∧
        t = min (1024 * (total : Int)) (2 ^ 63 - 1) ∧
        u = min (max 0 (min (1024 * (total : Int)) (2 ^ 64 - 1) -
          min (1024 * (available.getD (free.getD 0) : Int)) (2 ^ 64 - 1))) (2 ^ 63 - 1)) ∧
    (∀ t u, totalMemory fs path = .ok t → usedMemory fs path = .ok u →
      0 < t ∧ t ≤ 2 ^ 63 - 1 ∧ 0 ≤ u ∧ u ≤ t) ∧
    ∀ p, totalMemory fs path = .error (.unexpectedEnd p) ↔ p = path.clean ∧
      ∃ total free available, StoredAt fs path total free available ∧ total.getD 0 = 0 := by
  refine ⟨fun e => totalMemory_eq_error_iff.trans usedMemory_eq_error_iff.symm, ?_, ?_,
    fun p => totalMemory_eq_error_iff.trans readAt_eq_unexpectedEnd_iff⟩
  · intro t u
    constructor
    · rintro ⟨ht, hu⟩
      obtain ⟨info, hr, rfl⟩ := map_eq_ok_iff.mp ht
      obtain ⟨_, hr', rfl⟩ := map_eq_ok_iff.mp hu
      cases hr.symm.trans hr'
      obtain ⟨total, free, available, hs, hz, rfl⟩ := readAt_eq_ok_iff.mp hr
      exact ⟨total, free, available, hs, hz, clamp_ofKibibytes total,
        clamp_used_ofStored total free available⟩
    · rintro ⟨total, free, available, hs, hz, rfl, rfl⟩
      have hr := readAt_eq_ok_iff.mpr ⟨total, free, available, hs, hz, rfl⟩
      exact ⟨map_eq_ok_iff.mpr ⟨_, hr, clamp_ofKibibytes total⟩,
        map_eq_ok_iff.mpr ⟨_, hr, clamp_used_ofStored total free available⟩⟩
  · intro t u ht hu
    obtain ⟨info, hr, rfl⟩ := map_eq_ok_iff.mp ht
    obtain ⟨_, hr', rfl⟩ := map_eq_ok_iff.mp hu
    cases hr.symm.trans hr'
    obtain ⟨total, free, available, hs, hz, rfl⟩ := readAt_eq_ok_iff.mp hr
    exact clamp_bounds _ (mt total_ofStored_eq_zero_iff.mp hz)

/-- A summary of more than fits a word, and one without a total. -/
def summaryFiles : FileSystem where
  entries := [(["meminfo"], .file (Text.encode
      "MemTotal: 18014398509481984 kB\nMemFree 7\nMemAvailable: 0 kB\nMemTotal: x\n")),
    (["partial"], .file (Text.encode "MemFree: 1 kB\n"))]
  workingDirectory := []

/-- The total is cut off, none of it is available though some is free, and the line behind those
that complete the keys is not read. -/
theorem totalMemory_usedMemory_summaryFiles :
    (totalMemory summaryFiles ⟨"meminfo"⟩ = .ok (2 ^ 63 - 1) ∧
      usedMemory summaryFiles ⟨"meminfo"⟩ = .ok (2 ^ 63 - 1)) ∧
    (∃ t u, totalMemory summaryFiles ⟨"meminfo"⟩ = .ok t ∧
      usedMemory summaryFiles ⟨"meminfo"⟩ = .ok u ∧ 0 < t ∧ u ≤ t) ∧
    totalMemory summaryFiles ⟨"partial"⟩ = .error (.unexpectedEnd ⟨"partial"⟩) ∧
    usedMemory summaryFiles ⟨"partial"⟩ = .error (.unexpectedEnd ⟨"partial"⟩) := by
  have htotal : table.Entry "MemTotal: 18014398509481984 kB\n" "MemTotal" "18014398509481984" :=
    ⟨"MemTotal:", ["kB"], by decide, .inl rfl, by decide⟩
  have hfree : table.Entry "MemFree 7\n" "MemFree" "7" :=
    ⟨"MemFree", [], by decide, Text.stripped_iff.mpr (by decide), by decide⟩
  have havailable : table.Entry "MemAvailable: 0 kB\n" "MemAvailable" "0" :=
    ⟨"MemAvailable:", ["kB"], by decide, .inl rfl, by decide⟩
  have hone : table.Entry "MemFree: 1 kB\n" "MemFree" "1" :=
    ⟨"MemFree:", ["kB"], by decide, .inl rfl, by decide⟩
  have asks {text key value : String} {n : Nat} (h : table.Entry text key value)
      (hn : (Text.readNat64 value).toOption = some n) :
      table.Asks (Text.encode text) (some (key, n)) :=
    .number (Text.decode?_encode text) h (eq_ok_of_toOption hn)
  have incomplete {calls : List (String × Nat)} (h : "MemAvailable" ∉ calls.map Prod.fst) :
      ¬ table.Complete calls := fun hc => h (hc.2 _ (by decide))
  have hfull : StoredAt summaryFiles ⟨"meminfo"⟩ (some 18014398509481984) (some 7) (some 0) := by
    have first : table.Passed [Text.encode "MemTotal: 18014398509481984 kB\n"]
        [("MemTotal", 18014398509481984)] :=
      .snoc .nil (asks htotal (by decide)) (by simp [KeyTable.Fresh]) (incomplete (by decide))
    have both : table.Passed
        [Text.encode "MemTotal: 18014398509481984 kB\n", Text.encode "MemFree 7\n"]
        [("MemTotal", 18014398509481984), ("MemFree", 7)] :=
      .snoc first (asks hfree (by decide)) (by simp [KeyTable.Fresh]) (incomplete (by decide))
    exact ⟨_, rfl, _, .complete rfl both (asks havailable (by decide)) (by simp [KeyTable.Fresh])
      ⟨rfl, by decide⟩, rfl, rfl, rfl⟩
  have hpartial : StoredAt summaryFiles ⟨"partial"⟩ none (some 1) none := by
    have only : table.Passed [Text.encode "MemFree: 1 kB\n"] [("MemFree", 1)] :=
      .snoc .nil (asks hone (by decide)) (by simp [KeyTable.Fresh]) (incomplete (by decide))
    exact ⟨_, rfl, _, .through rfl only, rfl, rfl, rfl⟩
  obtain ⟨-, hvalues, hbounds, -⟩ := totalMemory_usedMemory summaryFiles ⟨"meminfo"⟩
  obtain ⟨halike, -, -, hbroken⟩ := totalMemory_usedMemory summaryFiles ⟨"partial"⟩
  have hok := (hvalues (2 ^ 63 - 1) (2 ^ 63 - 1)).mpr
    ⟨_, _, _, hfull, by decide, by decide, by decide⟩
  obtain ⟨hpos, -, -, hle⟩ := hbounds _ _ hok.1 hok.2
  have he := (hbroken _).mpr ⟨rfl, _, _, _, hpartial, rfl⟩
  exact ⟨hok, ⟨_, _, hok.1, hok.2, hpos, hle⟩, he, (halike _).mp he⟩

end ControlGroups.MemoryInfo
