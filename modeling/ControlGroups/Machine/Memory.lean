import ControlGroups.Error
import ControlGroups.KeyTable

/-! The memory of the whole machine, as its summary file reports it in kibibytes. -/
namespace ControlGroups

/-- The memory of a machine in bytes. Old systems do not report what is available. -/
structure MemoryInfo where
  total : Nat
  free : Nat
  available : Option Nat
  deriving DecidableEq, Repr

namespace MemoryInfo

def defaultPath : Path := ⟨"/proc/meminfo"⟩

/-- Kibibytes in bytes, at most the largest word. -/
def ofKibibytes (n : Nat) : Nat := min (n * 1024) Text.maxNat64

/-- The lines of the summary that matter. -/
def table : KeyTable MemoryInfo where
  suffix := ":"
  repeatable := false
  start := ⟨0, 0, none⟩
  handlers :=
    [("MemTotal", fun n info => { info with total := ofKibibytes n }),
      ("MemFree", fun n info => { info with free := ofKibibytes n }),
      ("MemAvailable", fun n info => { info with available := some (ofKibibytes n) })]
  distinct := by decide

/-- The memory in use: what is neither available nor, where that is not reported, free. -/
def used (info : MemoryInfo) : Nat := info.total - info.available.getD info.free

/-- A number of bytes as a signed word, at most the largest one. -/
def clamp (bytes : Nat) : Int := (min bytes Text.maxInt64 : Nat)

/-- Reads a summary. One without a total is incomplete. -/
def readAt (fs : FileSystem) (path : Path) : Except Error MemoryInfo :=
  match fs.find path.clean with
  | .error e => .error (.fileOpen path.clean e)
  | .ok node =>
    match table.readNode node with
    | .error e => .error (.content path.clean e)
    | .ok info => if info.total = 0 then .error (.unexpectedEnd path.clean) else .ok info

def totalMemory (fs : FileSystem) (path : Path) : Except Error Int :=
  (readAt fs path).map fun info => clamp info.total

def usedMemory (fs : FileSystem) (path : Path) : Except Error Int :=
  (readAt fs path).map fun info => clamp info.used

theorem used_le_total (info : MemoryInfo) : info.used ≤ info.total := Nat.sub_le _ _

theorem clamp_mono {m n : Nat} (h : m ≤ n) : clamp m ≤ clamp n := by
  simp only [clamp]
  omega

end MemoryInfo
end ControlGroups
