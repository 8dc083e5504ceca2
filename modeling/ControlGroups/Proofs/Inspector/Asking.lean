import ControlGroups.Inspector
import ControlGroups.Proofs.Scan.Folding

/-! Which hierarchy answers a question, and with which failure no hierarchy does. -/
namespace ControlGroups.Inspector

variable {α : Type} {fs : FileSystem} {i : Inspector} {unified : Unified → α}
  {controllers : Controllers → α}

theorem ask_eq_ok_iff {a : α} : i.ask fs unified controllers = .ok a ↔
    i.isUnified fs = .ok true ∧ unified i.unified = a ∨
      i.isUnified fs = .ok false ∧ ∃ cs, i.controllers fs = .ok cs ∧ controllers cs = a := by
  rw [ask]
  cases hu : i.isUnified fs with
  | error e => simp
  | ok found =>
    cases found with
    | true => simp
    | false => simp [bind_eq_ok_iff]

theorem ask_eq_error_iff {e : Error} : i.ask fs unified controllers = .error e ↔
    i.isUnified fs = .error e ∨ i.isUnified fs = .ok false ∧ i.controllers fs = .error e := by
  rw [ask]
  cases hu : i.isUnified fs with
  | error e' => simp
  | ok found =>
    cases found with
    | true => simp
    | false => simp [bind_eq_error_iff]

theorem isUnified_congr {fs' : FileSystem} (h : fs.AgreeOn fs' i.mounts) :
    i.isUnified fs' = i.isUnified fs := by
  rw [isUnified, isUnified, Mount.hasUnifiedRoot, Mount.hasUnifiedRoot, Scan.foldFile_congr h]

theorem controllers_congr {fs' : FileSystem} (hm : fs.AgreeOn fs' i.mounts)
    (hc : fs.AgreeOn fs' i.membership) : i.controllers fs' = i.controllers fs := by
  have hg : Membership.readGroups fs' i.membership = Membership.readGroups fs i.membership :=
    Scan.foldFile_congr hc ∅
  rw [Inspector.controllers, Inspector.controllers, Controllers.read, Controllers.read, hg]
  apply bind_congr
  intro groups
  exact Scan.foldFile_congr hm ∅

theorem sourceOf_of_none {settings : Settings} (hc : settings.container = none)
    (hp : settings.marker ≠ none ∨ settings.membership ≠ none) :
    sourceOf settings = .own (.new (settings.marker.getD Container.markerPath)
      (settings.membership.getD Container.membershipPath)) := by
  have hn : ¬ (settings.marker = none ∧ settings.membership = none) :=
    fun ⟨hm, hg⟩ => hp.elim (· hm) (· hg)
  rw [sourceOf, hc]
  exact if_neg hn

theorem sourceOf_of_some {settings : Settings} {inside : Bool}
    (hc : settings.container = some inside) : sourceOf settings = .fixed inside := by
  rw [sourceOf, hc]

@[simp] theorem orElse_error (e : Error) (machine : Except Error Int) :
    orElse (.error e) machine = .error e := rfl

@[simp] theorem orElse_ok_none (machine : Except Error Int) :
    orElse (.ok none) machine = machine := rfl

@[simp] theorem orElse_ok_some (n : Int) (machine : Except Error Int) :
    orElse (.ok (some n)) machine = .ok n := rfl

end ControlGroups.Inspector
