import Std.Data.TreeMap
import ControlGroups.Scan

/-! The group of every controller that a membership file lists. -/
namespace ControlGroups

/-- The group that a process is in, by controller. -/
abbrev Groups := Std.TreeMap String String compare

namespace Membership

/-- The groups with those of one more record, which replace earlier ones. -/
def addTo (groups : Groups) (m : Membership) : Groups :=
  m.controllers.foldl (fun groups controller => groups.insert controller m.group) groups

/-- The groups of a membership file. -/
def readGroups (fs : FileSystem) (path : Path) : Except Error Groups :=
  Scan.foldFile fs path parse (fun groups m => .ok (m.addTo groups)) ∅

/-- Inserting under several names reaches exactly those names. -/
theorem getElem?_addTo (groups : Groups) (m : Membership) (controller : String) :
    (m.addTo groups)[controller]? =
      if controller ∈ m.controllers then some m.group else groups[controller]? := by
  obtain ⟨id, controllers, group⟩ := m
  simp only [addTo]
  induction controllers generalizing groups with
  | nil => simp
  | cons c cs ih =>
    rw [List.foldl_cons, ih, Std.TreeMap.getElem?_insert]
    by_cases h : controller ∈ cs
    · simp [h]
    · by_cases hc : c = controller
      · simp [hc]
      · simp [h, hc, Ne.symm hc]

end Membership
end ControlGroups
