import ControlGroups.Attribute.MemoryLimit

/-! Limits in the unified hierarchy, where one directory has the files of all controllers. -/
namespace ControlGroups

/-- The directory of a group of the unified hierarchy. -/
structure Unified where
  directory : Path
  deriving DecidableEq, Repr

namespace Unified

/-- The share of processor time, if there is a limit. -/
def cpuQuota (fs : FileSystem) (u : Unified) : Except Error (Option Cores) :=
  (Attribute.readIn fs u.directory "cpu.max" Attribute.cpuMax).map (·.bind CpuMax.cores?)

/-- The memory limit, if there is one. -/
def memoryLimit (fs : FileSystem) (u : Unified) : Except Error (Option Int) :=
  (Attribute.readIn fs u.directory "memory.max" Attribute.memoryMax).map Option.join

/-- The memory in use, if it is reported. -/
def memoryUsage (fs : FileSystem) (u : Unified) : Except Error (Option Int) :=
  Attribute.readIn fs u.directory "memory.current" Attribute.memoryUsage

end Unified
end ControlGroups
