import ControlGroups.Attribute.MemoryLimit
import ControlGroups.Controllers.Basic

/-! Limits in a hierarchy of controllers, where every controller has a directory of its own. -/
namespace ControlGroups.Controllers

def cpu : String := "cpu"

def memory : String := "memory"

/-- The share of processor time, if the controller is mounted and both files set one. The period is
read only where there is a quota. -/
def cpuQuota (fs : FileSystem) (controllers : Controllers) : Except Error (Option Cores) :=
  match controllers[cpu]? with
  | none => .ok none
  | some directory => do
    match ← Attribute.readIn fs directory "cpu.cfs_quota_us" Attribute.cfsQuota with
    | some (some quota) =>
      let period ← Attribute.readIn fs directory "cpu.cfs_period_us" Attribute.cfsPeriod
      .ok (period.bind fun period => Cores.of? quota.toNat period.toNat)
    | _ => .ok none

/-- The memory limit, if the controller is mounted and there is one. -/
def memoryLimit (fs : FileSystem) (controllers : Controllers) : Except Error (Option Int) :=
  match controllers[memory]? with
  | none => .ok none
  | some directory =>
    (Attribute.readIn fs directory "memory.limit_in_bytes" Attribute.limitInBytes).map Option.join

/-- The memory in use, if the controller is mounted and reports it. -/
def memoryUsage (fs : FileSystem) (controllers : Controllers) : Except Error (Option Int) :=
  match controllers[memory]? with
  | none => .ok none
  | some directory =>
    Attribute.readIn fs directory "memory.usage_in_bytes" Attribute.memoryUsage

end ControlGroups.Controllers
