import ControlGroups.Container.Detector
import ControlGroups.Controllers.Limits
import ControlGroups.Machine.Basic
import ControlGroups.Machine.Memory
import ControlGroups.Unified

/-! The limits of a process. Which hierarchy is asked depends on the mount table alone; where it
sets no limit, the limit is the machine. -/
namespace ControlGroups

inductive ContainerSource where
  | shared
  | own (detector : Detector)
  | fixed (value : Bool)
  deriving DecidableEq, Repr

structure Inspector where
  mounts : Path
  membership : Path
  unified : Unified
  memory : Path
  source : ContainerSource
  deriving DecidableEq, Repr

/-- The files that an inspector is to read instead of those of the running process, and whether the
process runs in a container, where that is known. -/
structure Settings where
  mounts : Option Path
  membership : Option Path
  unified : Option Path
  memory : Option Path
  marker : Option Path
  container : Option Bool
  deriving DecidableEq, Repr

def Settings.none : Settings := ⟨.none, .none, .none, .none, .none, .none⟩

/-- Processor time: a share of it, or all processors of the machine. -/
inductive Allowance where
  | share (cores : Cores)
  | machine (count : UInt64)
  deriving DecidableEq, Repr

def Allowance.toFloat : Allowance → Float
  | .share cores => cores.toFloat
  | .machine count => Float.ofNat count.toNat

namespace Inspector

def mountsPath : Path := ⟨"/proc/self/mountinfo"⟩

/-- How an inspector with these settings knows whether the process runs in a container. Other files
than those of the running process call for a detector of their own. -/
def sourceOf (s : Settings) : ContainerSource :=
  match s.container with
  | some value => .fixed value
  | none =>
    if s.marker = none ∧ s.membership = none then .shared
    else .own (.new (s.marker.getD Container.markerPath)
      (s.membership.getD Container.membershipPath))

def ofSettings (s : Settings) : Inspector where
  mounts := s.mounts.getD mountsPath
  membership := s.membership.getD Container.membershipPath
  unified := ⟨s.unified.getD ⟨Mount.unifiedPoint⟩⟩
  memory := s.memory.getD MemoryInfo.defaultPath
  source := sourceOf s

def ofProcess : Inspector := ofSettings .none

variable (fs : FileSystem) (shared : Detector) (i : Inspector)

def inContainer : Bool :=
  match i.source with
  | .shared => shared.isContainer fs
  | .own detector => detector.isContainer fs
  | .fixed value => value

/-- The inspector after it was asked whether the process runs in a container. -/
def latch : Inspector :=
  match i.source with
  | .own detector => { i with source := .own (detector.latch fs) }
  | _ => i

/-- The shared detector after an inspector was asked whether the process runs in a container. -/
def latchShared : Detector :=
  match i.source with
  | .shared => shared.latch fs
  | _ => shared

/-- Whether the unified hierarchy is the one that counts. -/
def isUnified : Except Error Bool := Mount.hasUnifiedRoot fs i.mounts

def controllers : Except Error Controllers := Controllers.read fs i.mounts i.membership

/-- Asks the hierarchy that counts. What its files answer is kept apart from a failure to find
them. -/
def ask {α : Type} (unified : Unified → α) (controllers : Controllers → α) : Except Error α := do
  if ← i.isUnified fs then .ok (unified i.unified)
  else .ok (controllers (← i.controllers fs))

/-- What the hierarchy that counts answers, or what the machine answers where it sets nothing. -/
def orElse (limit : Except Error (Option Int)) (machine : Except Error Int) : Except Error Int := do
  match ← limit with
  | some bytes => .ok bytes
  | none => machine

/-- The processor time of the process. Only a process in a container is limited, and a limit that
cannot be read is none. -/
def cpuQuota (m : Machine) (shared : Detector) (i : Inspector) : Except Error Allowance :=
  if i.inContainer m.files shared then
    (i.ask m.files (Unified.cpuQuota m.files) (Controllers.cpuQuota m.files)).map fun
      | .ok (some cores) => .share cores
      | _ => .machine m.cpuCount
  else .ok (.machine m.cpuCount)

/-- The memory limit of the process. A limit that cannot be read is an error. -/
def memoryQuota : Except Error Int :=
  orElse (i.ask fs (Unified.memoryLimit fs) (Controllers.memoryLimit fs) >>= id)
    (MemoryInfo.totalMemory fs i.memory)

def memoryUsage : Except Error Int :=
  orElse (i.ask fs (Unified.memoryUsage fs) (Controllers.memoryUsage fs) >>= id)
    (MemoryInfo.usedMemory fs i.memory)

@[simp] theorem inContainer_latch (later : FileSystem) :
    (i.latch fs).inContainer later (i.latchShared fs shared) = i.inContainer fs shared := by
  obtain ⟨_, _, _, _, source⟩ := i
  cases source <;> rfl

end Inspector
end ControlGroups
