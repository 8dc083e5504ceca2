import ControlGroups.Attribute.CpuList

/-! The machine that a process runs on, and its processors. -/
namespace ControlGroups

/-- The files of a machine and the number of processors that the system reports directly. -/
structure Machine where
  files : FileSystem
  processors : UInt64

namespace Machine

def onlinePath : Path := ⟨"/sys/devices/system/cpu/online"⟩

/-- How many processors a list file names, if the file is there. -/
def onlineCpus (fs : FileSystem) (path : Path) : Except Error (Option UInt64) :=
  Attribute.readAt fs path Attribute.cpuList

/-- How many processors the machine has: those online, or what the system reports where the list
does not name any. -/
def cpuCount (m : Machine) : UInt64 :=
  match onlineCpus m.files onlinePath with
  | .ok (some count) => if 0 < count then count else m.processors
  | _ => m.processors

end Machine
end ControlGroups
