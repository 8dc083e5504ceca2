import ControlGroups.Proofs.Attribute.Bandwidth
import ControlGroups.Proofs.Binary64.Division
import ControlGroups.Proofs.Inspector.CpuQuota

/-! The two readers of processor time. One hierarchy keeps quota and period in two files and the
other in one, and equal numbers give equal answers in both. Whatever the files hold, a share that is
read is one of two positive words. -/
namespace ControlGroups

open Text (Numeral IsInt64 Solid Blanks)

variable {fs : FileSystem} {directory : Path} {q p : Int}

namespace Cores
variable {cores : Cores}

theorem of?_toNat_eq_none_iff : of? q.toNat p.toNat = none ↔ q ≤ 0 ∨ p ≤ 0 := by
  rw [of?_eq_none_iff, Int.toNat_eq_zero, Int.toNat_eq_zero]

theorem of?_toNat_eq_some_iff :
    of? q.toNat p.toNat = some cores ↔ (cores.quota : Int) = q ∧ (cores.period : Int) = p := by
  have hq := cores.quota_pos
  have hp := cores.period_pos
  rw [of?_eq_some_iff]
  omega

/-- As a number of processors, a share is the quotient of the two numbers that make it. -/
theorem toFloat_of_eq (hq : (cores.quota : Int) = q) (hp : (cores.period : Int) = p) :
    cores.toFloat = Float.ofNat q.toNat / Float.ofNat p.toNat := by
  rw [toFloat, ← hq, ← hp, Int.toNat_natCast, Int.toNat_natCast]

/-- Both numbers of a share fit signed words. -/
def Representable (cores : Cores) : Prop := IsInt64 cores.quota ∧ IsInt64 cores.period

theorem Representable.bounds (h : cores.Representable) :
    (1 ≤ cores.quota ∧ cores.quota ≤ 2 ^ 63 - 1) ∧
      1 ≤ cores.period ∧ cores.period ≤ 2 ^ 63 - 1 := by
  obtain ⟨⟨-, hq⟩, -, hp⟩ := h
  have hquota : cores.quota ≤ 2 ^ 63 - 1 := by omega
  have hperiod : cores.period ≤ 2 ^ 63 - 1 := by omega
  exact ⟨⟨cores.quota_pos, hquota⟩, cores.period_pos, hperiod⟩

theorem Representable.toFloat_pos (h : cores.Representable) :
    0 < cores.toFloat ∧ cores.toFloat.isInf = false ∧ cores.toFloat.isNaN = false := by
  obtain ⟨⟨-, hq⟩, -, hp⟩ := h.bounds
  have hw : 2 ^ 63 - 1 ≤ Text.maxNat64 := by decide
  exact cores.toFloat_pos (hq.trans hw) (hp.trans hw)

end Cores

namespace Controllers
variable {controllers : Controllers} {cores : Cores}

/-- A quota that is no limit settles the answer, and the file of the period is not read. -/
theorem cpuQuota_of_quota_le_zero (hd : controllers["cpu"]? = some directory) (hq : IsInt64 q)
    (hle : q ≤ 0) (h : fs.Holds directory "cpu.cfs_quota_us" (Numeral · q)) :
    controllers.cpuQuota fs = .ok none := by
  have hr : Attribute.readIn fs directory "cpu.cfs_quota_us" Attribute.cfsQuota =
      .ok (some none) := by
    apply Attribute.readIn_of_holds_numeral h
    intro s hs
    simp only [Attribute.cfsQuota, Content.int64_of_numeral hs hq, Except.map]
    rw [if_neg (by omega)]
  simp only [cpuQuota, cpu, hd, hr, ok_bind]

theorem cpuQuota_of_holds (hd : controllers["cpu"]? = some directory) (hq : IsInt64 q)
    (hp : IsInt64 p) (hquota : fs.Holds directory "cpu.cfs_quota_us" (Numeral · q))
    (hperiod : fs.Holds directory "cpu.cfs_period_us" (Numeral · p)) :
    controllers.cpuQuota fs = .ok (Cores.of? q.toNat p.toNat) := by
  rcases le_or_gt q 0 with hle | hlt
  · rw [cpuQuota_of_quota_le_zero hd hq hle hquota,
      Cores.of?_toNat_eq_none_iff.mpr (.inl hle)]
  · have hr : Attribute.readIn fs directory "cpu.cfs_quota_us" Attribute.cfsQuota =
        .ok (some (some q)) := by
      apply Attribute.readIn_of_holds_numeral hquota
      intro s hs
      simp only [Attribute.cfsQuota, Content.int64_of_numeral hs hq, Except.map, if_pos hlt]
    have ht : Attribute.readIn fs directory "cpu.cfs_period_us" Attribute.cfsPeriod =
        .ok (some p) :=
      Attribute.readIn_of_holds_numeral hperiod fun s hs => Content.int64_of_numeral hs hp
    simp only [cpuQuota, cpu, hd, hr, ht, ok_bind, Option.bind_some]

theorem representable_of_cpuQuota (h : controllers.cpuQuota fs = .ok (some cores)) :
    cores.Representable := by
  obtain ⟨directory, -, hq, hp⟩ := cpuQuota_eq_some_iff.mp h
  obtain ⟨s, hs⟩ := hq.exists_parse
  obtain ⟨t, ht⟩ := hp.exists_parse
  exact ⟨Attribute.isInt64_of_cfsQuota hs,
    Text.isInt64_of_readInt64 (Content.int64_eq_ok_iff.mp ht)⟩

end Controllers

namespace Unified
variable {u : Unified} {cores : Cores}

theorem cpuQuota_of_holds (hq : IsInt64 q) (hp : IsInt64 p)
    (h : fs.Holds u.directory "cpu.max" (WordThenNumeral (Numeral · q) p)) :
    u.cpuQuota fs = .ok (Cores.of? q.toNat p.toNat) := by
  have hf : ∀ word, Numeral word q → Solid word ∧ Attribute.parseLimit word = .ok (some q) :=
    fun word hw => ⟨hw.solid, Attribute.parseLimit_of_numeral hw hq⟩
  have hr := Attribute.readIn_of_holds h fun s => Attribute.parse_wordThenNumeral hp hf
  rw [cpuQuota, hr]
  rfl

theorem cpuQuota_of_unlimited (hp : IsInt64 p)
    (h : fs.Holds u.directory "cpu.max" (WordThenNumeral (· = "max") p)) :
    u.cpuQuota fs = .ok none := by
  have hf : ∀ word, word = "max" → Solid word ∧ Attribute.parseLimit word = .ok none := by
    rintro word rfl
    exact ⟨⟨by decide, by simp [Text.isBlank, Text.blankRanges]⟩, rfl⟩
  have hr := Attribute.readIn_of_holds h fun s => Attribute.parse_wordThenNumeral hp hf
  rw [cpuQuota, hr]
  rfl

theorem representable_of_cpuQuota (h : u.cpuQuota fs = .ok (some cores)) :
    cores.Representable := by
  obtain ⟨max, hr, hq, hp⟩ := cpuQuota_eq_some_iff.mp h
  obtain ⟨s, hs⟩ := hr.exists_parse
  obtain ⟨hquota, hperiod⟩ := Attribute.isInt64_of_parseCpuMax hs
  rw [hp] at hperiod
  exact ⟨hquota _ hq, hperiod⟩

end Unified

/-- Both readers give one answer for one quota and period: none where a number is not positive, and
else the share that the two numbers make, which is their quotient as a number of processors. The
word for the absence of a limit counts as a quota that is not positive. Whatever the files hold, a
share that is read consists of two positive words and is the quotient of them, so it is above zero
and finite. -/
theorem cpuQuota_readers_agree (fs fs' : FileSystem) (controllers : Controllers) (u : Unified) :
    (∀ directory q p, IsInt64 q → IsInt64 p → controllers["cpu"]? = some directory →
      fs.Holds directory "cpu.cfs_quota_us" (Numeral · q) →
      fs.Holds directory "cpu.cfs_period_us" (Numeral · p) →
      fs'.Holds u.directory "cpu.max" (WordThenNumeral (Numeral · q) p) →
      ∃ answer, controllers.cpuQuota fs = .ok answer ∧ u.cpuQuota fs' = .ok answer ∧
        (answer = none ↔ q ≤ 0 ∨ p ≤ 0) ∧
        (∀ cores, answer = some cores ↔ (cores.quota : Int) = q ∧ (cores.period : Int) = p) ∧
        ∀ cores, answer = some cores →
          cores.toFloat = Float.ofNat q.toNat / Float.ofNat p.toNat) ∧
    (∀ directory q p, IsInt64 q → IsInt64 p → q ≤ 0 → controllers["cpu"]? = some directory →
      fs.Holds directory "cpu.cfs_quota_us" (Numeral · q) →
      fs'.Holds u.directory "cpu.max" (WordThenNumeral (· = "max") p) →
      controllers.cpuQuota fs = .ok none ∧ u.cpuQuota fs' = .ok none) ∧
    ∀ cores, controllers.cpuQuota fs = .ok (some cores) ∨ u.cpuQuota fs' = .ok (some cores) →
      ((1 ≤ cores.quota ∧ cores.quota ≤ 2 ^ 63 - 1) ∧
        1 ≤ cores.period ∧ cores.period ≤ 2 ^ 63 - 1) ∧
      cores.toFloat = Float.ofNat cores.quota / Float.ofNat cores.period ∧
      0 < cores.toFloat ∧ cores.toFloat.isInf = false ∧ cores.toFloat.isNaN = false := by
  refine ⟨?_, ?_, ?_⟩
  · intro directory q p hq hp hd hquota hperiod hmax
    refine ⟨_, Controllers.cpuQuota_of_holds hd hq hp hquota hperiod,
      Unified.cpuQuota_of_holds hq hp hmax, Cores.of?_toNat_eq_none_iff,
      fun cores => Cores.of?_toNat_eq_some_iff, fun cores hs => ?_⟩
    obtain ⟨hcq, hcp⟩ := Cores.of?_toNat_eq_some_iff.mp hs
    exact Cores.toFloat_of_eq hcq hcp
  · intro directory q p hq hp hle hd hquota hmax
    exact ⟨Controllers.cpuQuota_of_quota_le_zero hd hq hle hquota,
      Unified.cpuQuota_of_unlimited hp hmax⟩
  · intro cores h
    have hr : cores.Representable :=
      h.elim Controllers.representable_of_cpuQuota Unified.representable_of_cpuQuota
    exact ⟨hr.bounds, rfl, hr.toFloat_pos⟩

/-- A tree of two groups. One may use three halves of a processor, the other has no limit. -/
def bandwidthFiles : FileSystem where
  entries :=
    [(["busy"], .directory),
      (["cpu.cfs_quota_us", "busy"], .file (Text.encode "\t+150000\nrest")),
      (["cpu.cfs_period_us", "busy"], .file (Text.encode "100000")),
      (["cpu.max", "busy"], .file (Text.encode "150000 \t100000\n")),
      (["idle"], .directory),
      (["cpu.cfs_quota_us", "idle"], .file (Text.encode "-1\n")),
      (["cpu.max", "idle"], .file (Text.encode "max 100000\n"))]
  workingDirectory := []

/-- The processor controller alone, with a directory of its own. -/
def Controllers.ofCpu (directory : String) : Controllers :=
  (∅ : Controllers).insert "cpu" ⟨directory⟩

/-- Both readers find the share of the one group and no limit for the other. -/
theorem cpuQuota_readers_agree_bandwidthFiles :
    (∃ cores : Cores, (Controllers.ofCpu "busy").cpuQuota bandwidthFiles = .ok (some cores) ∧
      Unified.cpuQuota bandwidthFiles ⟨⟨"busy"⟩⟩ = .ok (some cores) ∧
      cores.quota = 150000 ∧ cores.period = 100000 ∧
      cores.toFloat = Float.ofNat 150000 / Float.ofNat 100000 ∧ 0 < cores.toFloat) ∧
    (Controllers.ofCpu "idle").cpuQuota bandwidthFiles = .ok none ∧
      Unified.cpuQuota bandwidthFiles ⟨⟨"idle"⟩⟩ = .ok none := by
  have hd (directory : String) : (Controllers.ofCpu directory)["cpu"]? = some ⟨directory⟩ := by
    simp [Controllers.ofCpu]
  have hplus : Numeral "+150000" 150000 := .plus (by decide) (by simp)
  have hbare : Numeral "150000" 150000 := .unsigned (by decide) (by simp)
  have hperiod : Numeral "100000" 100000 := .unsigned (by decide) (by simp)
  have hminus : Numeral "-1" (-1) := .minus (by decide) (by simp)
  have htab : Blanks "\t" := List.all_eq_true.mp (by decide)
  have hspace : Blanks " " := List.all_eq_true.mp (by decide)
  have hquota : bandwidthFiles.Holds ⟨"busy"⟩ "cpu.cfs_quota_us" (Numeral · 150000) :=
    ⟨_, _, hplus, rfl, "\t", "", htab, Text.blanks_empty, by decide, by decide,
      .inr ⟨Text.encode "rest", rfl⟩⟩
  have hp : bandwidthFiles.Holds ⟨"busy"⟩ "cpu.cfs_period_us" (Numeral · 100000) :=
    ⟨_, _, hperiod, rfl, Content.onFirstLine_encode _⟩
  have hmax : bandwidthFiles.Holds ⟨"busy"⟩ "cpu.max"
      (WordThenNumeral (Numeral · 150000) 100000) :=
    ⟨_, _, ⟨_, " \t", _, hbare, hspace.append htab, by decide, by decide, hperiod, rfl⟩, rfl,
      Content.onFirstLine_newline _ []⟩
  have hunset : bandwidthFiles.Holds ⟨"idle"⟩ "cpu.cfs_quota_us" (Numeral · (-1)) :=
    ⟨_, _, hminus, rfl, Content.onFirstLine_newline _ []⟩
  have hfree : bandwidthFiles.Holds ⟨"idle"⟩ "cpu.max" (WordThenNumeral (· = "max") 100000) :=
    ⟨_, _, ⟨_, " ", _, rfl, hspace, by decide, by decide, hperiod, rfl⟩, rfl,
      Content.onFirstLine_newline _ []⟩
  obtain ⟨hagree, -, hpos⟩ := cpuQuota_readers_agree bandwidthFiles bandwidthFiles
    (Controllers.ofCpu "busy") ⟨⟨"busy"⟩⟩
  obtain ⟨-, hidle, -⟩ := cpuQuota_readers_agree bandwidthFiles bandwidthFiles
    (Controllers.ofCpu "idle") ⟨⟨"idle"⟩⟩
  obtain ⟨answer, hc, hu, -, hs, hquotient⟩ := hagree ⟨"busy"⟩ 150000 100000 ⟨by decide, by decide⟩
    ⟨by decide, by decide⟩ (hd "busy") hquota hp hmax
  obtain rfl : answer = some ⟨150000, 100000, by decide, by decide⟩ := (hs _).mpr ⟨rfl, rfl⟩
  exact ⟨⟨_, hc, hu, rfl, rfl, hquotient _ rfl, (hpos _ (.inl hc)).2.2.1⟩,
    hidle ⟨"idle"⟩ (-1) 100000 ⟨by decide, by decide⟩ ⟨by decide, by decide⟩ (by decide)
      (hd "idle") hunset hfree⟩

end ControlGroups
