import ControlGroups.Machine.Basic
import ControlGroups.Proofs.Attribute.CpuList

/-! How many processors a machine has: what its list of processors adds up to, or what the system
reports where the list adds up to nothing or cannot be read. -/
namespace ControlGroups

theorem Attribute.Refused.ne_noValue {item : String} {e : ContentError} (h : Refused item e) :
    e ≠ .noValue := by
  cases h <;> exact nofun

theorem Attribute.neverBlank_cpuList : cpuList.NeverBlank := by
  intro value h
  obtain ⟨before, item, after, -, -, hr⟩ := countItems_eq_error_iff.mp h
  exact hr.ne_noValue rfl

namespace Machine
variable {fs : FileSystem} {path : Path} {m : Machine} {count : UInt64}

/-- The first line of a file is a list of processors, and the items that hold some text add up to a
count. -/
def Lists (fs : FileSystem) (path : Path) (count : UInt64) : Prop :=
  ∃ bs value counts, fs.HasFirstLine path bs ∧ Content.FirstValue bs value ∧
    List.Forall₂ Attribute.Counts (Attribute.itemsOf value) counts ∧ count = .ofNat counts.sum

theorem onlineCpus_eq_some_iff : onlineCpus fs path = .ok (some count) ↔ Lists fs path count := by
  rw [onlineCpus, ← Attribute.reading_iff Attribute.neverBlank_cpuList]
  constructor
  · intro h
    cases h with
    | @value bs value _ h hv hp =>
      obtain ⟨counts, hc, hn⟩ := Attribute.countItems_eq_ok_iff.mp hp
      exact ⟨bs, value, counts, h, hv, hc, hn⟩
  · rintro ⟨bs, value, counts, h, hv, hc, hn⟩
    exact .value h hv (Attribute.countItems_eq_ok_iff.mpr ⟨counts, hc, hn⟩)

theorem cpuCount_of_lists (h : Lists m.files onlinePath count) (hc : count ≠ 0) :
    m.cpuCount = count := by
  rw [cpuCount, onlineCpus_eq_some_iff.mpr h]
  exact if_pos (UInt64.pos_iff_ne_zero.mpr hc)

theorem cpuCount_of_not_lists (h : ∀ count, Lists m.files onlinePath count → count = 0) :
    m.cpuCount = m.processors := by
  rw [cpuCount]
  split
  · rename_i count hl
    rw [h count (onlineCpus_eq_some_iff.mp hl)]
    rfl
  · rfl

end Machine
end ControlGroups
