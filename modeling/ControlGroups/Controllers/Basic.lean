import ControlGroups.Membership.Groups
import ControlGroups.Mount.Hierarchy

/-! The directory of every controller: its group, which a membership file gives from the root of a
hierarchy, is moved to where the mount table makes that hierarchy visible. -/
namespace ControlGroups

/-- The directory of the group of a process, by controller. -/
abbrev Controllers := Std.TreeMap String Path compare

/-- The directory under which a mount shows a group. The group has to lie under the root from which
its hierarchy is mounted. -/
def Mount.directoryOf (m : Mount) (group : String) : Except Error Path :=
  let root := (Path.mk m.root).normalize
  let group := (Path.mk group).normalize
  match group.relativeTo? root with
  | none => .error (.notExposed ⟨m.point⟩ root.toPath group.toPath)
  | some rest => .ok ((Path.mk m.point).normalize.walk rest).toPath

namespace Controllers

/-- Adds the directory of one controller, if its group is known. -/
def addOption (groups : Groups) (m : Mount) (controllers : Controllers) (option : String) :
    Except Error Controllers :=
  match groups[option]? with
  | none => .ok controllers
  | some group => (m.directoryOf group).map (controllers.insert option)

/-- Adds the directories of the controllers that a mount names among its options, in their order
and in place of those of earlier mounts. -/
def addMount (groups : Groups) (controllers : Controllers) (m : Mount) :
    Except Error Controllers :=
  if m.kind = Mount.controllerKind then
    m.superOptions.foldlM (addOption groups m) controllers
  else .ok controllers

/-- The directories that a mount table and a membership file give together. The membership file is
read first. -/
def read (fs : FileSystem) (table membership : Path) : Except Error Controllers := do
  let groups ← Membership.readGroups fs membership
  Scan.foldFile fs table Mount.parse (addMount groups) ∅

/-- A mount of another kind changes nothing. -/
theorem addMount_of_ne {groups : Groups} {controllers : Controllers} {m : Mount}
    (h : m.kind ≠ Mount.controllerKind) : addMount groups controllers m = .ok controllers := by
  simp [addMount, h]

end Controllers
end ControlGroups
