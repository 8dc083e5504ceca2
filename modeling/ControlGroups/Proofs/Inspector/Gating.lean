import ControlGroups.Proofs.Inspector.Asking

/-! On which files an answer depends. Only the hierarchy that the mount table makes count is asked,
so nothing that the files of the other one hold is ever noticed. -/
namespace ControlGroups

/-- A question that attributes answer: the file with the answer in the unified hierarchy, and the
controller whose files have it elsewhere. -/
structure Question where
  unified : String
  controller : String
  files : List String

namespace Question

def memoryLimit : Question := ⟨"memory.max", "memory", ["memory.limit_in_bytes"]⟩

def memoryUsage : Question := ⟨"memory.current", "memory", ["memory.usage_in_bytes"]⟩

def cpuQuota : Question := ⟨"cpu.max", "cpu", ["cpu.cfs_quota_us", "cpu.cfs_period_us"]⟩

end Question

variable {fs fs' : FileSystem} {path : Path}

theorem Attribute.readAt_congr {α : Type} (a : Attribute α) (h : fs.AgreeOn fs' path) :
    readAt fs' path a = readAt fs path a := by
  rw [readAt, readAt, h.find_eq]

theorem Attribute.readIn_congr {α : Type} {directory : Path} {name : String} (a : Attribute α)
    (h : fs.AgreeOn fs' (directory.join ⟨name⟩)) :
    readIn fs' directory name a = readIn fs directory name a :=
  readAt_congr a h

theorem MemoryInfo.readAt_congr (h : fs.AgreeOn fs' path) : readAt fs' path = readAt fs path := by
  rw [readAt, readAt, h.find_eq]

namespace Unified
variable {u : Unified}

/-- Two trees that agree on the file with which the unified hierarchy answers a question. -/
def AgreeAbout (fs fs' : FileSystem) (u : Unified) (q : Question) : Prop :=
  fs.AgreeOn fs' (u.directory.join ⟨q.unified⟩)

theorem memoryLimit_congr (h : AgreeAbout fs fs' u .memoryLimit) :
    u.memoryLimit fs' = u.memoryLimit fs := by
  have hf : fs.AgreeOn fs' (u.directory.join ⟨"memory.max"⟩) := h
  rw [memoryLimit, memoryLimit, Attribute.readIn_congr _ hf]

theorem memoryUsage_congr (h : AgreeAbout fs fs' u .memoryUsage) :
    u.memoryUsage fs' = u.memoryUsage fs := by
  have hf : fs.AgreeOn fs' (u.directory.join ⟨"memory.current"⟩) := h
  rw [memoryUsage, memoryUsage, Attribute.readIn_congr _ hf]

theorem cpuQuota_congr (h : AgreeAbout fs fs' u .cpuQuota) : u.cpuQuota fs' = u.cpuQuota fs := by
  have hf : fs.AgreeOn fs' (u.directory.join ⟨"cpu.max"⟩) := h
  rw [cpuQuota, cpuQuota, Attribute.readIn_congr _ hf]

end Unified

namespace Controllers
variable {controllers : Controllers}

/-- Two trees that agree on the files with which a controller answers a question, if it has a
directory. -/
def AgreeAbout (fs fs' : FileSystem) (controllers : Controllers) (q : Question) : Prop :=
  ∀ directory, controllers[q.controller]? = some directory →
    ∀ name ∈ q.files, fs.AgreeOn fs' (directory.join ⟨name⟩)

theorem memoryLimit_congr (h : AgreeAbout fs fs' controllers .memoryLimit) :
    controllers.memoryLimit fs' = controllers.memoryLimit fs := by
  rw [memoryLimit, memoryLimit]
  cases hd : controllers[memory]? with
  | none => rfl
  | some directory =>
    have hl := h directory hd "memory.limit_in_bytes" (by simp [Question.memoryLimit])
    simp only [Attribute.readIn_congr _ hl]

theorem memoryUsage_congr (h : AgreeAbout fs fs' controllers .memoryUsage) :
    controllers.memoryUsage fs' = controllers.memoryUsage fs := by
  rw [memoryUsage, memoryUsage]
  cases hd : controllers[memory]? with
  | none => rfl
  | some directory =>
    have hu := h directory hd "memory.usage_in_bytes" (by simp [Question.memoryUsage])
    simp only [Attribute.readIn_congr _ hu]

theorem cpuQuota_congr (h : AgreeAbout fs fs' controllers .cpuQuota) :
    controllers.cpuQuota fs' = controllers.cpuQuota fs := by
  rw [cpuQuota, cpuQuota]
  cases hd : controllers[cpu]? with
  | none => rfl
  | some directory =>
    have hq := h directory hd "cpu.cfs_quota_us" (by simp [Question.cpuQuota])
    have hp := h directory hd "cpu.cfs_period_us" (by simp [Question.cpuQuota])
    simp only [Attribute.readIn_congr _ hq, Attribute.readIn_congr _ hp]

end Controllers

namespace Inspector
variable {i : Inspector} {q : Question}

/-- Two trees that agree on everything that an inspector reads to answer a question: the mount
table, and then, where the unified hierarchy counts, one file of it, and where it does not, the
membership file and the files of the controller. -/
structure AgreeAbout (fs fs' : FileSystem) (i : Inspector) (q : Question) : Prop where
  table : fs.AgreeOn fs' i.mounts
  unified : i.isUnified fs = .ok true → i.unified.AgreeAbout fs fs' q
  membership : i.isUnified fs = .ok false → fs.AgreeOn fs' i.membership
  controllers : i.isUnified fs = .ok false →
    ∀ cs, i.controllers fs = .ok cs → cs.AgreeAbout fs fs' q

/-- Where the hierarchies give the same answer, so does the one that counts. -/
theorem ask_congr {α : Type} {unified unified' : Unified → α}
    {controllers controllers' : Controllers → α} (h : AgreeAbout fs fs' i q)
    (hu : ∀ {u : Unified}, u.AgreeAbout fs fs' q → unified' u = unified u)
    (hc : ∀ {cs : Controllers}, cs.AgreeAbout fs fs' q → controllers' cs = controllers cs) :
    i.ask fs' unified' controllers' = i.ask fs unified controllers := by
  rw [ask, ask, isUnified_congr h.table]
  cases hv : i.isUnified fs with
  | error e => simp
  | ok found =>
    cases found with
    | true => simp [hu (h.unified hv)]
    | false =>
      rw [controllers_congr h.table (h.membership hv)]
      cases hr : i.controllers fs with
      | error e => simp
      | ok cs => simp [hc (h.controllers hv cs hr)]

/-- The same inspector, told in another way whether the process runs in a container. -/
def withSource (i : Inspector) (source : ContainerSource) : Inspector := { i with source := source }

@[simp] theorem memoryQuota_withSource (fs : FileSystem) (i : Inspector)
    (source : ContainerSource) : (i.withSource source).memoryQuota fs = i.memoryQuota fs := rfl

@[simp] theorem memoryUsage_withSource (fs : FileSystem) (i : Inspector)
    (source : ContainerSource) : (i.withSource source).memoryUsage fs = i.memoryUsage fs := rfl

theorem exists_latch_eq_withSource (fs : FileSystem) (i : Inspector) :
    ∃ source, i.latch fs = i.withSource source := by
  obtain ⟨mounts, membership, unified, memory, source⟩ := i
  cases source with
  | shared => exact ⟨.shared, rfl⟩
  | own detector => exact ⟨.own (detector.latch fs), rfl⟩
  | fixed value => exact ⟨.fixed value, rfl⟩

theorem memoryQuota_congr (h : AgreeAbout fs fs' i .memoryLimit) (hm : fs.AgreeOn fs' i.memory) :
    i.memoryQuota fs' = i.memoryQuota fs := by
  rw [memoryQuota, memoryQuota, ask_congr h Unified.memoryLimit_congr Controllers.memoryLimit_congr,
    MemoryInfo.totalMemory, MemoryInfo.totalMemory, MemoryInfo.readAt_congr hm]

theorem memoryUsage_congr (h : AgreeAbout fs fs' i .memoryUsage) (hm : fs.AgreeOn fs' i.memory) :
    i.memoryUsage fs' = i.memoryUsage fs := by
  rw [memoryUsage, memoryUsage, ask_congr h Unified.memoryUsage_congr Controllers.memoryUsage_congr,
    MemoryInfo.usedMemory, MemoryInfo.usedMemory, MemoryInfo.readAt_congr hm]

theorem cpuQuota_congr {m m' : Machine} {shared shared' : Detector} {source : ContainerSource}
    (h : AgreeAbout m.files m'.files i .cpuQuota)
    (hin : (i.withSource source).inContainer m'.files shared' = i.inContainer m.files shared)
    (hn : m'.cpuCount = m.cpuCount) :
    (i.withSource source).cpuQuota m' shared' = i.cpuQuota m shared := by
  have ha := ask_congr h Unified.cpuQuota_congr Controllers.cpuQuota_congr
  have hs : (i.withSource source).ask m'.files (Unified.cpuQuota m'.files)
      (Controllers.cpuQuota m'.files) =
        i.ask m'.files (Unified.cpuQuota m'.files) (Controllers.cpuQuota m'.files) := rfl
  rw [cpuQuota, cpuQuota, hin, hn, hs, ha]

/-- The answers follow from what is read about them, from the summary of memory and, for the
processor time, from whether the process runs in a container and from the processors of the machine.
How it is known where the process runs does not matter to the memory: not by setting, by marker nor
by an answer that was latched. -/
theorem hierarchy_noninterference (m m' : Machine) (i : Inspector) :
    (AgreeAbout m.files m'.files i .memoryLimit → m.files.AgreeOn m'.files i.memory →
      ∀ source, (i.withSource source).memoryQuota m'.files = i.memoryQuota m.files) ∧
    (AgreeAbout m.files m'.files i .memoryUsage → m.files.AgreeOn m'.files i.memory →
      ∀ source, (i.withSource source).memoryUsage m'.files = i.memoryUsage m.files) ∧
    (AgreeAbout m.files m'.files i .cpuQuota → m'.cpuCount = m.cpuCount →
      ∀ source shared shared',
        (i.withSource source).inContainer m'.files shared' = i.inContainer m.files shared →
          (i.withSource source).cpuQuota m' shared' = i.cpuQuota m shared) ∧
    (∀ (fs later : FileSystem) (settings : Settings) (marker : Option Path)
        (container : Option Bool),
      ((ofSettings { settings with marker := marker, container := container }).latch
          later).memoryQuota fs = (ofSettings settings).memoryQuota fs ∧
        ((ofSettings { settings with marker := marker, container := container }).latch
          later).memoryUsage fs = (ofSettings settings).memoryUsage fs) := by
  refine ⟨fun h hm source => ?_, fun h hm source => ?_,
    fun h hn source shared shared' hin => cpuQuota_congr h hin hn, ?_⟩
  · rw [memoryQuota_withSource, memoryQuota_congr h hm]
  · rw [memoryUsage_withSource, memoryUsage_congr h hm]
  · intro fs later settings marker container
    obtain ⟨source, hl⟩ := exists_latch_eq_withSource later
      (ofSettings { settings with marker := marker, container := container })
    rw [hl]
    exact ⟨rfl, rfl⟩

/-- A machine with the files of both hierarchies, of which the mount table makes one count. -/
def mixedMachine (table groups unified controller : String) : Machine where
  files :=
    { entries :=
        [(["mounts"], .file (Text.encode table)), (["groups"], .file (Text.encode groups)),
          (["u"], .directory), (["memory.max", "u"], .file (Text.encode unified)),
          (["m"], .directory), (["memory.limit_in_bytes", "m"], .file (Text.encode controller))]
      workingDirectory := [] }
  processors := 1

def ofMixedMachine : Inspector :=
  ⟨⟨"mounts"⟩, ⟨"groups"⟩, ⟨⟨"u"⟩⟩, ⟨"meminfo"⟩, .shared⟩

/-- A machine on which the unified hierarchy counts. -/
def unifiedMachine (groups controller : String) : Machine :=
  mixedMachine "1 1 0:1 / /sys/fs/cgroup rw - cgroup2 c rw\n" groups "4\n" controller

/-- A machine on which the hierarchy of a controller counts. -/
def controllerMachine (unified : String) : Machine :=
  mixedMachine "1 1 0:1 / m rw - cgroup c memory\n" "1:memory:/\n" unified "8\n"

/-- A unified hierarchy keeps its limit when the rest of the files breaks, and a hierarchy of
controllers keeps its own when the unified one changes. -/
theorem hierarchy_noninterference_mixedMachine :
    ofMixedMachine.memoryQuota (unifiedMachine "1:memory:/\n" "8\n").files = .ok 4 ∧
    (ofMixedMachine.withSource (.fixed true)).memoryQuota
      (unifiedMachine "broken\n" "9\n").files = .ok 4 ∧
    ofMixedMachine.memoryQuota (controllerMachine "4\n").files = .ok 8 ∧
    (ofMixedMachine.withSource (.fixed true)).memoryQuota
      (controllerMachine "max\n").files = .ok 8 := by
  have hu : ofMixedMachine.isUnified (unifiedMachine "1:memory:/\n" "8\n").files = .ok true :=
    eq_ok_of_toOption (by decide +kernel)
  have hc : ofMixedMachine.isUnified (controllerMachine "4\n").files = .ok false :=
    eq_ok_of_toOption (by decide +kernel)
  have h4 : ofMixedMachine.memoryQuota (unifiedMachine "1:memory:/\n" "8\n").files = .ok 4 :=
    eq_ok_of_toOption (by decide +kernel)
  have h8 : ofMixedMachine.memoryQuota (controllerMachine "4\n").files = .ok 8 :=
    eq_ok_of_toOption (by decide +kernel)
  have hd : (ofMixedMachine.controllers (controllerMachine "4\n").files).toOption.map
      (·["memory"]?) = some (some ⟨"m"⟩) := by decide +kernel
  obtain ⟨cs, hcs, hs⟩ := exists_ok_of_toOption_map hd
  refine ⟨h4, ?_, h8, ?_⟩
  · rw [← h4]
    apply (hierarchy_noninterference (unifiedMachine "1:memory:/\n" "8\n")
      (unifiedMachine "broken\n" "9\n") ofMixedMachine).1
    · refine ⟨rfl, fun _ => rfl, fun hf => ?_, fun hf => ?_⟩
      · cases hu.symm.trans hf
      · cases hu.symm.trans hf
    · rfl
  · rw [← h8]
    apply (hierarchy_noninterference (controllerMachine "4\n") (controllerMachine "max\n")
      ofMixedMachine).1
    · refine ⟨rfl, fun hf => ?_, fun _ => rfl, fun _ cs' hr directory hm name hn => ?_⟩
      · cases hc.symm.trans hf
      · cases hcs.symm.trans hr
        cases hs.symm.trans hm
        rw [List.mem_singleton.mp hn]
        rfl
    · rfl

end Inspector
end ControlGroups
