import ControlGroups.Scan

/-! What a mount table says about the hierarchies of control groups. Both questions read the whole
table, so a line that is refused is reported wherever it stands. -/
namespace ControlGroups.Mount

def controllerKind : String := "cgroup"

def unifiedKind : String := "cgroup2"

def unifiedPoint : String := "/sys/fs/cgroup"

/-- Whether a record mounts the unified hierarchy, wherever that is. -/
def isUnified (m : Mount) : Bool := m.kind == unifiedKind

/-- Whether a record mounts the unified hierarchy at its canonical mount point. -/
def isUnifiedRoot (m : Mount) : Bool := m.isUnified && m.point == unifiedPoint

/-- Whether a mount table mounts the unified hierarchy at its canonical mount point. -/
def hasUnifiedRoot (fs : FileSystem) (table : Path) : Except Error Bool :=
  Scan.foldFile fs table parse (fun found m => .ok (found || m.isUnifiedRoot)) false

/-- Where a mount table mounts the unified hierarchy first. -/
def unifiedMountPoint (fs : FileSystem) (table : Path) : Except Error Path := do
  let point ← Scan.foldFile fs table parse
    (fun found m => .ok (found <|> if m.isUnified then some m.point else none)) none
  match point with
  | none => .error (.noUnifiedMount table)
  | some point => .ok ⟨point⟩

end ControlGroups.Mount
