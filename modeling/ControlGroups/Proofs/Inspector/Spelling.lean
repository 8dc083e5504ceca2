import ControlGroups.Inspector
import ControlGroups.Proofs.Path.Joining
import ControlGroups.Proofs.Scan.Failures

/-! Answers that do not depend on how a path is spelled. A file is opened, and named in errors,
under the normal spelling of its path, and a name is joined to a directory before that spelling is
asked for. -/
namespace ControlGroups

variable {fs : FileSystem} {p p' : Path}

namespace Scan
variable {ρ σ : Type} {parse : String → Except LineError ρ} {step : σ → ρ → Except Error σ}

theorem overFileWith_respell (h : p.clean = p'.clean)
    (parse : σ → String → σ × Except LineError ρ) (receive : σ → ρ → Scan σ) (state : σ) :
    overFileWith fs p parse receive state = overFileWith fs p' parse receive state := by
  rw [overFileWith, overFileWith, h]

theorem foldFile_respell (h : p.clean = p'.clean) (state : σ) :
    foldFile fs p parse step state = foldFile fs p' parse step state := by
  rw [foldFile, foldFile, overFile, overFile, overFileWith_respell h]

end Scan

namespace Attribute
variable {α : Type}

theorem readAt_respell (h : p.clean = p'.clean) (a : Attribute α) :
    readAt fs p a = readAt fs p' a := by
  rw [readAt, readAt, h]

/-- The name is joined to the directory as it is spelled, so what counts is that both joined paths
lead to one place. -/
theorem readIn_respell (h : p.clean = p'.clean) (name : String) (a : Attribute α) :
    readIn fs p name a = readIn fs p' name a :=
  readAt_respell (Path.clean_join_congr h ⟨name⟩) a

end Attribute

theorem MemoryInfo.readAt_respell (h : p.clean = p'.clean) : readAt fs p = readAt fs p' := by
  rw [readAt, readAt, h]

theorem MemoryInfo.totalMemory_respell (h : p.clean = p'.clean) :
    totalMemory fs p = totalMemory fs p' := by
  rw [totalMemory, totalMemory, readAt_respell h]

theorem MemoryInfo.usedMemory_respell (h : p.clean = p'.clean) :
    usedMemory fs p = usedMemory fs p' := by
  rw [usedMemory, usedMemory, readAt_respell h]

theorem Membership.readGroups_respell (h : p.clean = p'.clean) :
    readGroups fs p = readGroups fs p' :=
  Scan.foldFile_respell h ∅

theorem Controllers.read_respell {table table' membership membership' : Path}
    (ht : table.clean = table'.clean) (hm : membership.clean = membership'.clean) :
    read fs table membership = read fs table' membership' := by
  rw [read, read, Membership.readGroups_respell hm]
  apply bind_congr
  intro groups
  exact Scan.foldFile_respell ht ∅

namespace Unified

theorem cpuQuota_respell (h : p.clean = p'.clean) : cpuQuota fs ⟨p⟩ = cpuQuota fs ⟨p'⟩ := by
  rw [cpuQuota, cpuQuota, Attribute.readIn_respell h]

theorem memoryLimit_respell (h : p.clean = p'.clean) :
    memoryLimit fs ⟨p⟩ = memoryLimit fs ⟨p'⟩ := by
  rw [memoryLimit, memoryLimit, Attribute.readIn_respell h]

theorem memoryUsage_respell (h : p.clean = p'.clean) :
    memoryUsage fs ⟨p⟩ = memoryUsage fs ⟨p'⟩ := by
  rw [memoryUsage, memoryUsage, Attribute.readIn_respell h]

end Unified

namespace Mount

theorem hasUnifiedRoot_respell (h : p.clean = p'.clean) :
    hasUnifiedRoot fs p = hasUnifiedRoot fs p' :=
  Scan.foldFile_respell h false

/-- A scan of a table whose records are only looked at fails under the normal spelling of its
path. -/
theorem foldFile_ne_noUnifiedMount {σ : Type} (take : σ → Mount → σ) (state : σ) (table : Path) :
    Scan.foldFile fs p parse (fun s m => .ok (take s m)) state ≠
      .error (.noUnifiedMount table) := by
  intro h
  have hn : ∀ (s : σ) (m : Mount) (e : Error),
      Except.ok (take s m) = .error e ↔ ((fun _ => []) m : List Error).head? = some e := by simp
  have hf := List.mem_of_mem_head? ((Scan.foldFile_eq_error_iff hn).mp h)
  rcases Scan.mem_failures hf with ⟨_, hc⟩ | ⟨_, hc⟩ | ⟨_, hc⟩ | ⟨_, hc⟩
  · cases hc
  · cases hc
  · cases hc
  · cases hc

/-- Two spellings of a table that tell the same about where the unified hierarchy is mounted. Where
it is not, the failure names the table as it is spelled. -/
def PointAlike (fs : FileSystem) (p p' : Path) : Prop :=
  unifiedMountPoint fs p = unifiedMountPoint fs p' ∧
      (∀ table, unifiedMountPoint fs p ≠ .error (.noUnifiedMount table)) ∨
    unifiedMountPoint fs p = .error (.noUnifiedMount p) ∧
      unifiedMountPoint fs p' = .error (.noUnifiedMount p')

theorem unifiedMountPoint_respell (h : p.clean = p'.clean) : PointAlike fs p p' := by
  rw [PointAlike, unifiedMountPoint, unifiedMountPoint, Scan.foldFile_respell h]
  cases hf : Scan.foldFile fs p' parse
      (fun found m => .ok (found <|> if m.isUnified then some m.point else none)) none with
  | error e =>
    refine .inl ⟨rfl, fun table he => ?_⟩
    rw [error_bind, Except.error.injEq] at he
    exact foldFile_ne_noUnifiedMount _ _ table (he ▸ hf)
  | ok point =>
    cases point with
    | none => exact .inr ⟨rfl, rfl⟩
    | some point => exact .inl ⟨rfl, fun table he => nomatch he⟩

end Mount

namespace Inspector
variable {i i' : Inspector}

/-- Two inspectors that look in the same places, however the paths to them are spelled. -/
structure Respells (i i' : Inspector) : Prop where
  mounts : i.mounts.clean = i'.mounts.clean
  membership : i.membership.clean = i'.membership.clean
  unified : i.unified.directory.clean = i'.unified.directory.clean
  memory : i.memory.clean = i'.memory.clean

theorem Respells.ask_eq {α : Type} {unified : Unified → α} {controllers : Controllers → α}
    (h : i.Respells i') (hu : unified i.unified = unified i'.unified) :
    i.ask fs unified controllers = i'.ask fs unified controllers := by
  have hm : i.isUnified fs = i'.isUnified fs := Mount.hasUnifiedRoot_respell h.mounts
  have hc : i.controllers fs = i'.controllers fs :=
    Controllers.read_respell h.mounts h.membership
  rw [ask, ask, hm, hc, hu]

theorem Respells.memoryQuota_eq (h : i.Respells i') : i.memoryQuota fs = i'.memoryQuota fs := by
  rw [memoryQuota, memoryQuota, h.ask_eq (Unified.memoryLimit_respell h.unified),
    MemoryInfo.totalMemory_respell h.memory]

theorem Respells.memoryUsage_eq (h : i.Respells i') : i.memoryUsage fs = i'.memoryUsage fs := by
  rw [memoryUsage, memoryUsage, h.ask_eq (Unified.memoryUsage_respell h.unified),
    MemoryInfo.usedMemory_respell h.memory]

end Inspector

/-- Two paths that no reader tells apart, not even by a failure. -/
structure ReadAlike (fs : FileSystem) (p p' : Path) : Prop where
  hasUnifiedRoot : Mount.hasUnifiedRoot fs p = Mount.hasUnifiedRoot fs p'
  unifiedMountPoint : Mount.PointAlike fs p p'
  table : ∀ membership, Controllers.read fs p membership = Controllers.read fs p' membership
  membership : ∀ table, Controllers.read fs table p = Controllers.read fs table p'
  onlineCpus : Machine.onlineCpus fs p = Machine.onlineCpus fs p'
  memoryInfo : MemoryInfo.readAt fs p = MemoryInfo.readAt fs p'
  totalMemory : MemoryInfo.totalMemory fs p = MemoryInfo.totalMemory fs p'
  usedMemory : MemoryInfo.usedMemory fs p = MemoryInfo.usedMemory fs p'
  readIn : ∀ (α : Type) (a : Attribute α) (name : String),
    Attribute.readIn fs p name a = Attribute.readIn fs p' name a
  cpuQuota : Unified.cpuQuota fs ⟨p⟩ = Unified.cpuQuota fs ⟨p'⟩
  memoryLimit : Unified.memoryLimit fs ⟨p⟩ = Unified.memoryLimit fs ⟨p'⟩
  memoryUsage : Unified.memoryUsage fs ⟨p⟩ = Unified.memoryUsage fs ⟨p'⟩

theorem readAlike_of_clean_eq (h : p.clean = p'.clean) : ReadAlike fs p p' where
  hasUnifiedRoot := Mount.hasUnifiedRoot_respell h
  unifiedMountPoint := Mount.unifiedMountPoint_respell h
  table _ := Controllers.read_respell h rfl
  membership _ := Controllers.read_respell rfl h
  onlineCpus := Attribute.readAt_respell h Attribute.cpuList
  memoryInfo := MemoryInfo.readAt_respell h
  totalMemory := MemoryInfo.totalMemory_respell h
  usedMemory := MemoryInfo.usedMemory_respell h
  readIn _ a name := Attribute.readIn_respell h name a
  cpuQuota := Unified.cpuQuota_respell h
  memoryLimit := Unified.memoryLimit_respell h
  memoryUsage := Unified.memoryUsage_respell h

/-- No reader of files tells two spellings of one place apart, and neither do the questions about
memory whose paths are spelled in two ways. -/
theorem readers_ignore_spelling (fs : FileSystem) :
    (∀ p p' : Path, p.clean = p'.clean → ReadAlike fs p p') ∧
    (∀ i i' : Inspector, i.Respells i' →
      i.memoryQuota fs = i'.memoryQuota fs ∧ i.memoryUsage fs = i'.memoryUsage fs) :=
  ⟨fun _ _ h => readAlike_of_clean_eq h, fun _ _ h => ⟨h.memoryQuota_eq, h.memoryUsage_eq⟩⟩

/-- A tree of one limit in the unified hierarchy. -/
def limitFiles : FileSystem where
  entries :=
    [(["mounts"], .file (Text.encode "1 1 0:1 / /sys/fs/cgroup rw - cgroup2 c rw\n")),
      (["unified"], .directory), (["memory.max", "unified"], .file (Text.encode "5\n"))]
  workingDirectory := []

/-- An inspector whose paths are spelled through a directory that need not exist. -/
def inspectorThrough (way : String) : Inspector where
  mounts := ⟨way ++ "mounts"⟩
  membership := ⟨way ++ "groups"⟩
  unified := ⟨⟨way ++ "unified"⟩⟩
  memory := ⟨way ++ "memory"⟩
  source := .fixed true

/-- The limit is found on a way through a directory that does not exist. -/
theorem readers_ignore_spelling_limitFiles :
    ReadAlike limitFiles ⟨"unified/."⟩ ⟨"missing/../unified"⟩ ∧
      (inspectorThrough "missing/../").memoryQuota limitFiles = .ok 5 := by
  obtain ⟨hp, hi⟩ := readers_ignore_spelling limitFiles
  refine ⟨hp _ _ (by decide), ?_⟩
  have hr : (inspectorThrough "missing/../").Respells (inspectorThrough "") :=
    ⟨by decide, by decide, by decide, by decide⟩
  rw [(hi _ _ hr).1]
  rfl

end ControlGroups
