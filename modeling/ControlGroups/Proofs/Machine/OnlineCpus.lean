import Mathlib.Data.Finset.Max
import Mathlib.Order.Interval.Finset.Nat
import ControlGroups.Machine.Basic
import ControlGroups.Proofs.Attribute.CpuList
import ControlGroups.Proofs.Attribute.FirstLine

/-! Sets of processors, written as the list of their maximal runs. Reading the list gives back how
many processors are in the set. -/
namespace ControlGroups.Machine

open Text (Word)

variable {ids : Finset Nat} {run : Nat × Nat} {runs : List (Nat × Nat)}

/-- The maximal runs of a set, each by its first and last number, in their order. Between one run
and the next a number is missing. -/
structure IsRuns (ids : Finset Nat) (runs : List (Nat × Nat)) : Prop where
  ordered : ∀ run ∈ runs, run.1 ≤ run.2
  apart : runs.Pairwise fun run next => run.2 + 1 < next.1
  covers : ∀ id, id ∈ ids ↔ ∃ run ∈ runs, run.1 ≤ id ∧ id ≤ run.2

/-- A run of one number is written as the number. -/
def runText (run : Nat × Nat) : String :=
  if run.1 = run.2 then Text.decimal run.1
  else Text.decimal run.1 ++ "-" ++ Text.decimal run.2

def listText (runs : List (Nat × Nat)) : String := Text.joinFields ',' (runs.map runText)

def runSize (run : Nat × Nat) : Nat := run.2 + 1 - run.1

/-- The runs of a set that has one more number in front. -/
def addFirst (id : Nat) : List (Nat × Nat) → List (Nat × Nat)
  | [] => [(id, id)]
  | run :: runs => if id + 1 = run.1 then (id, run.2) :: runs else (id, id) :: run :: runs

section Runs

theorem isRuns_empty : IsRuns ∅ [] where
  ordered := by simp
  apart := .nil
  covers := by simp

theorem IsRuns.head_mem (h : IsRuns ids (run :: runs)) : run.1 ∈ ids :=
  (h.covers run.1).mpr ⟨run, List.mem_cons_self, Nat.le_refl _, h.ordered run List.mem_cons_self⟩

theorem IsRuns.head_le (h : IsRuns ids (run :: runs)) {id : Nat} (hid : id ∈ ids) :
    run.1 ≤ id := by
  obtain ⟨other, ho, hl, -⟩ := (h.covers id).mp hid
  rcases List.mem_cons.mp ho with rfl | ho
  · exact hl
  · have hr := h.ordered run List.mem_cons_self
    have ha := List.rel_of_pairwise_cons h.apart ho
    omega

/-- The number behind the first run is missing. -/
theorem IsRuns.succ_not_mem (h : IsRuns ids (run :: runs)) : run.2 + 1 ∉ ids := by
  intro hm
  obtain ⟨other, ho, hl, hu⟩ := (h.covers _).mp hm
  rcases List.mem_cons.mp ho with rfl | ho
  · omega
  · have ha := List.rel_of_pairwise_cons h.apart ho
    omega

theorem IsRuns.Icc_subset (h : IsRuns ids (run :: runs)) : Finset.Icc run.1 run.2 ⊆ ids := by
  intro id hid
  exact (h.covers id).mpr ⟨run, List.mem_cons_self, Finset.mem_Icc.mp hid⟩

/-- The other runs are those of what is left without the first one. -/
theorem IsRuns.tail (h : IsRuns ids (run :: runs)) :
    IsRuns (ids \ Finset.Icc run.1 run.2) runs where
  ordered other ho := h.ordered other (List.mem_cons_of_mem run ho)
  apart := List.Pairwise.of_cons h.apart
  covers id := by
    rw [Finset.mem_sdiff, Finset.mem_Icc, h.covers, List.exists_mem_cons_iff]
    constructor
    · rintro ⟨hr | ho, hn⟩
      · exact absurd hr hn
      · exact ho
    · rintro ⟨other, ho, hl, hu⟩
      have ha := List.rel_of_pairwise_cons h.apart ho
      exact ⟨.inr ⟨other, ho, hl, hu⟩, by omega⟩

/-- The sizes of the runs add up to the number of elements. -/
theorem IsRuns.sum_runSize (h : IsRuns ids runs) : (runs.map runSize).sum = ids.card := by
  induction runs generalizing ids with
  | nil =>
    have he : ids = ∅ := Finset.eq_empty_of_forall_notMem fun id hid => by
      simpa using (h.covers id).mp hid
    rw [he]
    rfl
  | cons run runs ih =>
    have hc := Finset.card_sdiff_add_card_eq_card h.Icc_subset
    rw [Nat.card_Icc] at hc
    rw [List.map_cons, List.sum_cons, ih h.tail, runSize]
    omega

/-- A set has one list of maximal runs. -/
theorem IsRuns.unique {others : List (Nat × Nat)} (h : IsRuns ids runs) (ho : IsRuns ids others) :
    others = runs := by
  induction runs generalizing ids others with
  | nil =>
    cases others with
    | nil => rfl
    | cons other others => simpa using (h.covers other.1).mp ho.head_mem
  | cons run runs ih =>
    cases others with
    | nil => simpa using (ho.covers run.1).mp h.head_mem
    | cons other others =>
      have hfirst : other.1 = run.1 :=
        Nat.le_antisymm (ho.head_le h.head_mem) (h.head_le ho.head_mem)
      have hrun := h.ordered run List.mem_cons_self
      have hother := ho.ordered other List.mem_cons_self
      have hle : other.2 ≤ run.2 := by
        by_contra hlt
        exact h.succ_not_mem (ho.Icc_subset (Finset.mem_Icc.mpr (by omega)))
      have hge : run.2 ≤ other.2 := by
        by_contra hlt
        exact ho.succ_not_mem (h.Icc_subset (Finset.mem_Icc.mpr (by omega)))
      obtain rfl : other = run := Prod.ext hfirst (Nat.le_antisymm hle hge)
      rw [ih h.tail ho.tail]

/-- A number below all others makes the first run longer, or a run of its own in front. -/
theorem IsRuns.addFirst {id : Nat} (h : IsRuns ids runs) (hid : ∀ other ∈ ids, id < other) :
    IsRuns (insert id ids) (addFirst id runs) := by
  cases runs with
  | nil =>
    refine ⟨by simp [Machine.addFirst], by simp [Machine.addFirst], fun other => ?_⟩
    rw [Finset.mem_insert, h.covers]
    simp [Machine.addFirst]
    omega
  | cons run runs =>
    obtain ⟨hrun, hruns⟩ := List.forall_mem_cons.mp h.ordered
    obtain ⟨hfar, hapart⟩ := List.pairwise_cons.mp h.apart
    have hlt := hid _ h.head_mem
    rw [Machine.addFirst]
    split
    · rename_i hnext
      refine ⟨List.forall_mem_cons.mpr ⟨?_, hruns⟩, List.pairwise_cons.mpr ⟨hfar, hapart⟩,
        fun other => ?_⟩
      · show id ≤ run.2
        omega
      · rw [Finset.mem_insert, h.covers, List.exists_mem_cons_iff, List.exists_mem_cons_iff,
          ← or_assoc]
        exact or_congr_left (by omega)
    · rename_i hnext
      refine ⟨List.forall_mem_cons.mpr ⟨Nat.le_refl id, h.ordered⟩,
        List.pairwise_cons.mpr ⟨List.forall_mem_cons.mpr ⟨?_, fun other ho => ?_⟩, h.apart⟩,
        fun other => ?_⟩
      · show id + 1 < run.1
        omega
      · have ha := hfar other ho
        show id + 1 < other.1
        omega
      · rw [Finset.mem_insert, h.covers, List.exists_mem_cons_iff (l := run :: runs)]
        exact or_congr_left (by omega)

theorem exists_isRuns (ids : Finset Nat) : ∃ runs, IsRuns ids runs := by
  induction ids using Finset.induction_on_min with
  | empty => exact ⟨[], isRuns_empty⟩
  | insert id ids hid ih =>
    obtain ⟨runs, h⟩ := ih
    exact ⟨_, h.addFirst hid⟩

end Runs

section Text

theorem word_decimal {n : Nat} (h : n ≤ Text.maxInt64) : Word (Text.decimal n) n :=
  ⟨(Text.natural_decimal n).numeral, Text.isInt64_of_le h⟩

theorem noSign_decimal (n : Nat) : '-' ∉ (Text.decimal n).toList :=
  Text.not_mem_decimal (by decide) n

/-- A run is written as an item that is counted as the numbers of the run. -/
theorem counts_runText (hle : run.1 ≤ run.2) (h : run.2 ≤ Text.maxInt64) :
    Attribute.Counts (runText run) (runSize run) := by
  have hlow : Word (Text.decimal run.1) run.1 := word_decimal (by omega)
  rw [runText]
  split
  · rename_i he
    refine ⟨run.1, run.1, .single (noSign_decimal _) hlow, Int.le_refl _, ?_⟩
    rw [runSize]
    omega
  · refine ⟨run.1, run.2, .range (noSign_decimal _) hlow (word_decimal h), by omega, ?_⟩
    rw [runSize]
    omega

/-- A run is written in digits and a minus sign. -/
theorem mem_runText {c : Char} (h : c ∈ (runText run).toList) : c = '-' ∨ c.isDigit = true := by
  rw [runText] at h
  split at h
  · exact .inr (Text.isDigit_of_mem_decimal h)
  · simp only [String.toList_append, List.mem_append] at h
    rcases h with (h | h) | h
    · exact .inr (Text.isDigit_of_mem_decimal h)
    · exact .inl (by simpa using h)
    · exact .inr (Text.isDigit_of_mem_decimal h)

theorem comma_not_mem_runText (run : Nat × Nat) : ',' ∉ (runText run).toList := by
  intro h
  rcases mem_runText h with h | h
  · exact absurd h (by decide)
  · exact absurd h (by decide)

theorem runText_ne_empty (run : Nat × Nat) : runText run ≠ "" := by
  have hd (n : Nat) : Text.decimal n ≠ "" := (Text.natural_decimal n).numeral.solid.ne_empty
  rw [runText]
  split
  · exact hd _
  · simp

theorem itemsOf_listText (runs : List (Nat × Nat)) :
    Attribute.itemsOf (listText runs) = runs.map runText := by
  cases runs with
  | nil => rfl
  | cons run runs =>
    rw [Attribute.itemsOf, listText, Text.fields_joinFields (by simp)]
    · rw [List.filter_eq_self]
      intro item hi
      obtain ⟨other, -, rfl⟩ := List.mem_map.mp hi
      simpa using runText_ne_empty other
    · intro item hi
      obtain ⟨other, -, rfl⟩ := List.mem_map.mp hi
      exact comma_not_mem_runText other

theorem not_blank_of_mem_listText {c : Char} (h : c ∈ (listText runs).toList) :
    Text.isBlank c = false := by
  rcases Text.mem_joinFields h with rfl | ⟨item, hi, hc⟩
  · decide
  · obtain ⟨run, -, rfl⟩ := List.mem_map.mp hi
    rcases mem_runText hc with rfl | hd
    · decide
    · exact Text.not_blank_of_isDigit hd

theorem trim_listText (runs : List (Nat × Nat)) : Text.trim (listText runs) = listText runs := by
  by_cases he : listText runs = ""
  · rw [he, Text.trim_empty]
  · exact Text.trim_of_solid ⟨he, fun c => not_blank_of_mem_listText⟩

theorem newline_not_mem_listText (runs : List (Nat × Nat)) : '\n' ∉ (listText runs).toList := by
  intro h
  exact absurd (not_blank_of_mem_listText h) (by decide)

end Text

/-- A file of the maximal runs of a set is read as the number of elements. -/
theorem onlineCpus_of_isRuns (h : IsRuns ids runs) (hids : ∀ id ∈ ids, id ≤ Text.maxInt64)
    {fs : FileSystem} {path : Path}
    (hf : fs.find path.clean = .ok (.file (Text.encode (listText runs ++ "\n")))) :
    onlineCpus fs path = .ok (some (.ofNat ids.card)) := by
  have hcounts : List.Forall₂ Attribute.Counts (runs.map runText) (runs.map runSize) := by
    rw [List.forall₂_map_left_iff, List.forall₂_map_right_iff, List.forall₂_same]
    intro run hr
    have hle := h.ordered run hr
    have hmem : run.2 ∈ ids := (h.covers run.2).mpr ⟨run, hr, hle, Nat.le_refl _⟩
    exact counts_runText hle (hids _ hmem)
  have hp : Attribute.cpuList.parse (listText runs) = .ok (.ofNat ids.card) := by
    show Attribute.countItems (Attribute.itemsOf (listText runs)) = _
    rw [itemsOf_listText, Attribute.countItems_eq_ok_iff]
    exact ⟨_, hcounts, congrArg UInt64.ofNat h.sum_runSize.symm⟩
  have hn := Text.newline_not_mem_encode (newline_not_mem_listText runs)
  have hr : Attribute.cpuList.read (Text.encode (listText runs ++ "\n")) =
      (.ok (.ofNat ids.card), []) := by
    rw [Text.encode_append]
    show Attribute.cpuList.read (Text.encode (listText runs) ++ Text.newline :: []) = _
    rw [Attribute.read_append_newline hn, Attribute.answer_encode, trim_listText, hp]
  simp only [onlineCpus, Attribute.readAt, hf, Attribute.readNode_file, hr]

/-- The numbers of processors are signed words, so there are not too many of them for a word. -/
theorem card_lt_of_le (h : ∀ id ∈ ids, id ≤ Text.maxInt64) : ids.card < 2 ^ 64 := by
  have hs : ids ⊆ Finset.range (Text.maxInt64 + 1) := by
    intro id hid
    exact Finset.mem_range.mpr (Nat.lt_succ_of_le (h id hid))
  have hc := Finset.card_le_card hs
  rw [Finset.card_range] at hc
  exact Nat.lt_of_le_of_lt hc (by decide)

/-- A list of processors is counted where every item that holds some text is a number without a
minus sign or two numbers around its first minus sign, the second of which is not smaller, and what
the items name is added up, as a word: a sum that fits one is reported as it is. Elsewhere the first
item that is neither decides how the list is refused. No end of an item that is counted is negative.
A set of processors has one list of maximal runs, and a file of this list is read as the number of
processors in the set. -/
theorem onlineCpus_counted :
    (∀ bs value, Content.FirstValue bs value →
      (∀ word, (Attribute.cpuList.read bs).1 = .ok word ↔
        ∃ counts, List.Forall₂ Attribute.Counts (Attribute.itemsOf value) counts ∧
          word = .ofNat counts.sum ∧ (counts.sum < 2 ^ 64 → word.toNat = counts.sum)) ∧
      ∀ e, (Attribute.cpuList.read bs).1 = .error e ↔
        ∃ before item after, Attribute.itemsOf value = before ++ item :: after ∧
          (∀ other ∈ before, ∃ n, Attribute.Counts other n) ∧ Attribute.Refused item e) ∧
    (∀ item a b, Attribute.Names item a b → a ≤ b → 0 ≤ a ∧ 0 ≤ b) ∧
    ∀ ids : Finset Nat, (∃! runs, IsRuns ids runs) ∧
      ∀ runs, IsRuns ids runs → (∀ id ∈ ids, id ≤ Text.maxInt64) → ∀ fs path,
        fs.find path.clean = .ok (.file (Text.encode (listText runs ++ "\n"))) →
          ∃ count, onlineCpus fs path = .ok (some count) ∧ count.toNat = ids.card := by
  refine ⟨fun bs value hv => ?_, fun item a b => Attribute.Names.nonneg, fun ids => ⟨?_, ?_⟩⟩
  · rw [Attribute.read_cpuList hv]
    refine ⟨fun word => ?_, fun e => Attribute.countItems_eq_error_iff⟩
    rw [Attribute.countItems_eq_ok_iff]
    constructor
    · rintro ⟨counts, hc, rfl⟩
      exact ⟨counts, hc, rfl, UInt64.toNat_ofNat_of_lt'⟩
    · rintro ⟨counts, hc, hw, -⟩
      exact ⟨counts, hc, hw⟩
  · obtain ⟨runs, h⟩ := exists_isRuns ids
    exact ⟨runs, h, fun others ho => h.unique ho⟩
  · intro runs h hids fs path hf
    exact ⟨_, onlineCpus_of_isRuns h hids hf, UInt64.toNat_ofNat_of_lt' (card_lt_of_le hids)⟩

/-- The processors 0 to 3, 6 and 8 to 11. -/
def onlineFiles : FileSystem where
  entries := [(["online"], .file (Text.encode "0-3,6,8-11\n"))]
  workingDirectory := []

/-- Nine processors are online. A list with an empty item is counted, and of two bad items the
first one is reported. -/
theorem onlineCpus_counted_onlineFiles :
    onlineCpus onlineFiles ⟨"online"⟩ = .ok (some 9) ∧
    (Attribute.cpuList.read (Text.encode " +2,,0-3\n")).1 = .ok 5 ∧
    (Attribute.cpuList.read (Text.encode "2,7-5,-1")).1 = .error (.invalidRange "7-5" 1) := by
  obtain ⟨hlist, -, hset⟩ := onlineCpus_counted
  have hplus : Word "+2" 2 := ⟨.plus (by decide) (by simp), by decide, by decide⟩
  have hzero : Word "0" 0 := ⟨.unsigned (by decide) (by simp), by decide, by decide⟩
  have htwo : Word "2" 2 := ⟨.unsigned (by decide) (by simp), by decide, by decide⟩
  have hthree : Word "3" 3 := ⟨.unsigned (by decide) (by simp), by decide, by decide⟩
  have hfive : Word "5" 5 := ⟨.unsigned (by decide) (by simp), by decide, by decide⟩
  have hseven : Word "7" 7 := ⟨.unsigned (by decide) (by simp), by decide, by decide⟩
  have hruns : IsRuns {0, 1, 2, 3, 6, 8, 9, 10, 11} [(0, 3), (6, 6), (8, 11)] := by
    refine ⟨by decide, by decide, fun id => ?_⟩
    simp
    omega
  refine ⟨?_, ?_, ?_⟩
  · obtain ⟨count, hc, hn⟩ :=
      (hset _).2 _ hruns (by decide) onlineFiles ⟨"online"⟩ (eq_ok_of_toOption (by decide))
    rw [hc, ← UInt64.ofNat_toNat (x := count), hn]
    rfl
  · have hvalue : Content.FirstValue (Text.encode " +2,,0-3\n") "+2,,0-3" :=
      ⟨by decide, " +2,,0-3\n", by decide, by decide⟩
    have hitems : Attribute.itemsOf "+2,,0-3" = ["+2", "0-3"] := by decide
    have hsingle : Attribute.Counts "+2" 1 :=
      ⟨2, 2, .single (by decide) hplus, by decide, by decide⟩
    have hnames : Attribute.Names ("0" ++ "-" ++ "3") 0 3 := .range (by decide) hzero hthree
    have hrange : Attribute.Counts "0-3" 4 := ⟨0, 3, hnames, by decide, by decide⟩
    rw [(hlist _ _ hvalue).1, hitems]
    exact ⟨[1, 4], .cons hsingle (.cons hrange .nil), rfl, fun _ => rfl⟩
  · have hvalue : Content.FirstValue (Text.encode "2,7-5,-1") "2,7-5,-1" :=
      ⟨by decide, "2,7-5,-1", by decide, by decide⟩
    have hitems : Attribute.itemsOf "2,7-5,-1" = ["2", "7-5", "-1"] := by decide
    have hsingle : Attribute.Counts "2" 1 := ⟨2, 2, .single (by decide) htwo, by decide, by decide⟩
    have hrefused : Attribute.Refused ("7" ++ "-" ++ "5") (.invalidRange ("7" ++ "-" ++ "5") 1) :=
      .backwards (by decide) hseven hfive (by decide)
    rw [(hlist _ _ hvalue).2, hitems]
    exact ⟨["2"], "7-5", ["-1"], rfl, List.forall_mem_singleton.mpr ⟨1, hsingle⟩, hrefused⟩

end ControlGroups.Machine
