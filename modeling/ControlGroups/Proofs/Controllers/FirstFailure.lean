import ControlGroups.Proofs.Controllers.Containment
import ControlGroups.Proofs.Scan.Failures

/-! With which failure the directories of controllers are refused: the first one of the membership
file, or else the first one of the mount table, where a mount fails at every option that names a
controller whose group it does not show. -/
namespace ControlGroups

namespace Membership
variable {fs fs' : FileSystem} {path : Path} {groups : Groups}

/-- The failures of a membership file, whose records are never refused. -/
def failures (fs : FileSystem) (path : Path) : List Error := Scan.failures fs path parse fun _ => []

/-- The groups of the lines of a membership file that parse. -/
def groupsIn (fs : FileSystem) (path : Path) : Groups := groupsOf (Scan.records fs path parse)

theorem failures_congr (h : fs.AgreeOn fs' path) : failures fs' path = failures fs path :=
  Scan.failures_congr h

theorem groupsIn_congr (h : fs.AgreeOn fs' path) : groupsIn fs' path = groupsIn fs path := by
  rw [groupsIn, Scan.records_congr h, groupsIn]

theorem readGroups_eq_error_iff {e : Error} :
    readGroups fs path = .error e ↔ (failures fs path).head? = some e :=
  Scan.foldFile_eq_error_iff (by simp)

theorem groupsIn_of_readGroups (h : readGroups fs path = .ok groups) :
    groupsIn fs path = groups := by
  obtain ⟨memberships, hr, hg⟩ := readGroups_eq_ok_iff.mp h
  rw [groupsIn, Scan.records_of_reads hr, hg]

end Membership

namespace Mount
variable {groups : Groups} {m : Mount} {option group : String}

/-- The failure of an option that names a controller whose group is not shown. -/
def optionFailures (groups : Groups) (m : Mount) (option : String) : List Error :=
  match groups[option]? with
  | none => []
  | some group =>
    match m.directoryOf group with
    | .error _ => [m.refusal group]
    | .ok _ => []

/-- The failures of a mount in the order of its options. Only hierarchies of controllers fail. -/
def failures (groups : Groups) (m : Mount) : List Error :=
  if m.kind = controllerKind then m.superOptions.flatMap (m.optionFailures groups) else []

theorem optionFailures_of_refuses (hg : groups[option]? = some group) (hr : m.Refuses group) :
    m.optionFailures groups option = [m.refusal group] := by
  have hd : m.directoryOf group = .error (m.refusal group) := hr
  simp only [optionFailures, hg, hd]

/-- The options that follow one with a failure have no part in the first failure of a mount. -/
theorem startAlike_failures {options more more' : List String} (hk : m.kind = controllerKind)
    (hg : groups[option]? = some group) (hr : m.Refuses group) :
    StartAlike ({ m with superOptions := options ++ option :: more }.failures groups)
      ({ m with superOptions := options ++ option :: more' }.failures groups) := by
  have hs : ∀ rest, { m with superOptions := options ++ option :: rest }.failures groups =
      options.flatMap (m.optionFailures groups) ++
        ([m.refusal group] ++ rest.flatMap (m.optionFailures groups)) := by
    intro rest
    -- what an option fails with does not depend on the options of the record
    rw [← optionFailures_of_refuses hg hr, ← List.flatMap_cons, ← List.flatMap_append]
    exact if_pos hk
  rw [hs, hs]
  exact ((StartAlike.refl (by simp)).append _ _).behind _

end Mount

namespace Controllers
variable {fs fs' : FileSystem} {table table' membership : Path} {groups : Groups}
  {controllers : Controllers} {m : Mount} {option : String} {e : Error}

/-- The failures of the two files in the order in which they are come to: those of the membership
file, and then those of the mount table with the groups of the former. -/
def failures (fs : FileSystem) (table membership : Path) : List Error :=
  Membership.failures fs membership ++
    Scan.failures fs table Mount.parse (Mount.failures (Membership.groupsIn fs membership))

theorem addOption_eq_error_iff : addOption groups m controllers option = .error e ↔
    (m.optionFailures groups option).head? = some e := by
  rw [addOption, Mount.optionFailures]
  cases hg : groups[option]? with
  | none => simp
  | some group =>
    simp only [map_eq_error_iff]
    cases hd : m.directoryOf group with
    | ok path => simp
    | error e' =>
      obtain ⟨-, rfl⟩ := Mount.refuses_of_directoryOf_eq_error hd
      simp

theorem addMount_eq_error_iff :
    addMount groups controllers m = .error e ↔ (m.failures groups).head? = some e := by
  have ho : ∀ controllers option e, addOption groups m controllers option = .error e ↔
      (m.optionFailures groups option).head? = some e := fun _ _ _ => addOption_eq_error_iff
  rw [addMount, Mount.failures]
  split
  · exact foldlM_eq_error_iff_head? ho
  · simp

theorem read_eq_error_iff : read fs table membership = .error e ↔
    (failures fs table membership).head? = some e := by
  rw [read, failures]
  refine bind_eq_error_iff_head? (fun _ => Membership.readGroups_eq_error_iff) fun groups hg => ?_
  have hm : ∀ controllers m e, addMount groups controllers m = .error e ↔
      (m.failures groups).head? = some e := fun _ _ _ => addMount_eq_error_iff
  rw [Membership.groupsIn_of_readGroups hg]
  exact Scan.foldFile_eq_error_iff hm

/-- The files are read through exactly where every line parses and no mount refuses the group of a
controller that it provides, a later mount of the controller or not. -/
theorem read_isOk_iff : (∃ controllers, read fs table membership = .ok controllers) ↔
    ∃ memberships mounts, Scan.Reads fs membership Membership.parse memberships ∧
      Scan.Reads fs table Mount.parse mounts ∧
      ∀ m c, Pairs mounts memberships m c → ¬ m.Refuses c.group := by
  constructor
  · rintro ⟨controllers, h⟩
    obtain ⟨memberships, mounts, hc, hm, -⟩ := read_eq_ok_iff.mp h
    refine ⟨memberships, mounts, hc, hm, ?_⟩
    intro m c hp hr
    obtain ⟨m', c', -, -, he⟩ := read_of_refuses hm hc hp hr
    cases h.symm.trans he
  · rintro ⟨memberships, mounts, hc, hm, hn⟩
    cases h : read fs table membership with
    | ok controllers => exact ⟨controllers, rfl⟩
    | error e =>
      rw [read_of_reads hm hc] at h
      obtain ⟨m, hmem, before, ha⟩ := exists_of_foldlM_eq_error h
      obtain ⟨s, group, hs, hg, hd⟩ := addMount_eq_error ha
      obtain ⟨c, hl, rfl⟩ := (Membership.getElem?_groupsOf memberships s group).mp hg
      exact absurd (Mount.refuses_of_directoryOf_eq_error hd).1 (hn m c ⟨s, hmem, hs, hl⟩)

/-- Files that are the same up to a failure, with anything after it. -/
inductive SameUntilFailure (fs fs' : FileSystem) (table membership : Path) : Path → Prop where
  | membership {table' : Path} (same : fs.AgreeOn fs' membership)
      (fails : Membership.failures fs membership ≠ []) :
      SameUntilFailure fs fs' table membership table'
  | membershipLine {table' : Path} {before after after' : List String} {line : String}
      {fault fault' : Option FileError} {cause : LineError}
      (shows : Scan.Shows fs membership (before ++ line :: after) fault)
      (shows' : Scan.Shows fs' membership (before ++ line :: after') fault')
      (fails : Membership.parse line = .error cause) :
      SameUntilFailure fs fs' table membership table'
  | membershipUnread {table' : Path} {lines : List String} {cause : FileError}
      (shows : Scan.Shows fs membership lines (some cause))
      (shows' : Scan.Shows fs' membership lines (some cause)) :
      SameUntilFailure fs fs' table membership table'
  | tableLine {before after after' : List String} {line : String}
      {fault fault' : Option FileError} {cause : LineError}
      (same : fs.AgreeOn fs' membership)
      (shows : Scan.Shows fs table (before ++ line :: after) fault)
      (shows' : Scan.Shows fs' table (before ++ line :: after') fault')
      (fails : Mount.parse line = .error cause) :
      SameUntilFailure fs fs' table membership table
  | tableUnread {lines : List String} {cause : FileError}
      (same : fs.AgreeOn fs' membership) (shows : Scan.Shows fs table lines (some cause))
      (shows' : Scan.Shows fs' table lines (some cause)) :
      SameUntilFailure fs fs' table membership table
  | option {before after after' options more more' : List String} {line line' option : String}
      {fault fault' : Option FileError} {m : Mount} {group : String}
      (same : fs.AgreeOn fs' membership)
      (shows : Scan.Shows fs table (before ++ line :: after) fault)
      (shows' : Scan.Shows fs' table (before ++ line' :: after') fault')
      (record : Mount.parse line = .ok { m with superOptions := options ++ option :: more })
      (record' : Mount.parse line' = .ok { m with superOptions := options ++ option :: more' })
      (kind : m.kind = Mount.controllerKind)
      (listed : (Membership.groupsIn fs membership)[option]? = some group)
      (fails : m.Refuses group) :
      SameUntilFailure fs fs' table membership table

/-- Membership files with the same first failure end both readings, whatever the mount tables
hold. -/
theorem startAlike_of_membership
    (h : StartAlike (Membership.failures fs membership) (Membership.failures fs' membership)) :
    StartAlike (failures fs table membership) (failures fs' table' membership) :=
  h.append _ _

theorem startAlike_of_table (same : fs.AgreeOn fs' membership)
    (h : StartAlike
      (Scan.failures fs table Mount.parse (Mount.failures (Membership.groupsIn fs membership)))
      (Scan.failures fs' table Mount.parse (Mount.failures (Membership.groupsIn fs membership)))) :
    StartAlike (failures fs table membership) (failures fs' table membership) := by
  rw [failures, failures, Membership.failures_congr same, Membership.groupsIn_congr same]
  exact h.behind _

theorem SameUntilFailure.startAlike (h : SameUntilFailure fs fs' table membership table') :
    StartAlike (failures fs table membership) (failures fs' table' membership) := by
  cases h with
  | membership same fails =>
    refine startAlike_of_membership ?_
    rw [Membership.failures_congr same]
    exact .refl fails
  | membershipLine shows shows' fails =>
    refine startAlike_of_membership (Scan.startAlike_failures shows shows' (.refl ?_))
    simp [Scan.lineFailures_of_error fails]
  | membershipUnread shows shows' =>
    exact startAlike_of_membership (Scan.startAlike_failures_of_unread shows shows')
  | tableLine same shows shows' fails =>
    refine startAlike_of_table same (Scan.startAlike_failures shows shows' (.refl ?_))
    simp [Scan.lineFailures_of_error fails]
  | tableUnread same shows shows' =>
    exact startAlike_of_table same (Scan.startAlike_failures_of_unread shows shows')
  | option same shows shows' record record' kind listed fails =>
    refine startAlike_of_table same (Scan.startAlike_failures shows shows' ?_)
    rw [Scan.lineFailures_of_ok record, Scan.lineFailures_of_ok record']
    exact Mount.startAlike_failures kind listed fails

/-- Reading fails with the first failure of the two files and goes through where there is none, and
nothing that stands after a failure has a part in the answer. -/
theorem read_first_failure (fs : FileSystem) (table membership : Path) :
    (∀ e, read fs table membership = .error e ↔
      (failures fs table membership).head? = some e) ∧
    ((∃ controllers, read fs table membership = .ok controllers) ↔
      ∃ memberships mounts, Scan.Reads fs membership Membership.parse memberships ∧
        Scan.Reads fs table Mount.parse mounts ∧
        ∀ m c, Pairs mounts memberships m c → ¬ m.Refuses c.group) ∧
    (∀ fs' table', SameUntilFailure fs fs' table membership table' →
      ∃ e, read fs table membership = .error e ∧ read fs' table' membership = .error e) := by
  refine ⟨fun _ => read_eq_error_iff, read_isOk_iff, ?_⟩
  intro fs' table' h
  obtain ⟨e, he, he'⟩ := h.startAlike
  exact ⟨e, read_eq_error_iff.mpr he, read_eq_error_iff.mpr he'⟩

/-- A mount that does not show the group `/h`. -/
def narrowMount : Mount := ⟨1, 1, "0:1", "/g", "/a", ["rw"], [], "cgroup", "c", ["cpu"]⟩

def narrowLine : String := "1 1 0:1 /g /a rw - cgroup c cpu"

/-- A mount of the same hierarchy that shows it. -/
def wideLine : String := "2 1 0:1 / /b rw - cgroup c cpu"

/-- Files of one controller in the group `/h`, with some mount table. -/
def narrowFiles (table : Node) : FileSystem where
  entries := [(["mounts"], table), (["groups"], .file (Text.encode "1:cpu:/h\n"))]
  workingDirectory := []

theorem shows_narrowFiles (table : Node) :
    Scan.Shows (narrowFiles table) ⟨"mounts"⟩ (Scan.nodeLines table) table.fault := by
  have hp : (Path.mk "mounts").clean = ⟨"mounts"⟩ := by decide
  refine ⟨table, ?_, rfl, rfl⟩
  rw [hp]
  rfl

theorem agreeOn_narrowFiles (table table' : Node) :
    (narrowFiles table).AgreeOn (narrowFiles table') ⟨"groups"⟩ := by
  have hf : ∀ table, (narrowFiles table).find (Path.mk "groups") =
      .ok (.file (Text.encode "1:cpu:/h\n")) := fun _ => rfl
  have hp : (Path.mk "groups").clean = ⟨"groups"⟩ := by decide
  rw [FileSystem.AgreeOn, hp, hf, hf]

/-- A later mount that shows the group does not help, and neither a line that does not parse nor a
failure to read is come to behind a mount that does not show it. Behind one that does, the failure
to read is the first. -/
theorem read_first_failure_narrowFiles :
    (∀ table ∈ [Node.file (Text.encode (narrowLine ++ "\n" ++ wideLine)),
        .file (Text.encode (narrowLine ++ "\nbroken")),
        .faulty (Text.encode (narrowLine ++ "\nbroken")) .inputOutput],
      read (narrowFiles table) ⟨"mounts"⟩ ⟨"groups"⟩ =
        .error (.notExposed ⟨"/a"⟩ ⟨"/g"⟩ ⟨"/h"⟩)) ∧
    read (narrowFiles (.faulty (Text.encode (wideLine ++ "\nbroken")) .inputOutput)) ⟨"mounts"⟩
        ⟨"groups"⟩ = .error (.readLine ⟨"mounts"⟩ .inputOutput) := by
  have hm : Mount.parse narrowLine = .ok { narrowMount with superOptions := [] ++ "cpu" :: [] } :=
    eq_ok_of_toOption (by decide)
  have hr : narrowMount.Refuses "/h" := Mount.refuses_of_none (by decide)
  have hg : (Membership.groupsIn (narrowFiles (.file (Text.encode narrowLine)))
      ⟨"groups"⟩)["cpu"]? = some "/h" := by decide
  have hl : Scan.nodeLines (.file (Text.encode narrowLine)) = [] ++ narrowLine :: [] := by decide
  obtain ⟨hfirst, -, hsame⟩ :=
    read_first_failure (narrowFiles (.file (Text.encode narrowLine))) ⟨"mounts"⟩ ⟨"groups"⟩
  have he := (hfirst (.notExposed ⟨"/a"⟩ ⟨"/g"⟩ ⟨"/h"⟩)).mpr (by decide +kernel)
  have hw (table : Node) (after : List String)
      (ha : Scan.nodeLines table = [] ++ narrowLine :: after) :
      read (narrowFiles table) ⟨"mounts"⟩ ⟨"groups"⟩ =
        .error (.notExposed ⟨"/a"⟩ ⟨"/g"⟩ ⟨"/h"⟩) := by
    obtain ⟨e, hf, hf'⟩ := hsame _ _ (.option (agreeOn_narrowFiles _ table)
      (hl ▸ shows_narrowFiles _) (ha ▸ shows_narrowFiles table) hm hm rfl hg hr)
    cases he.symm.trans hf
    exact hf'
  constructor
  · intro table ht
    simp only [List.mem_cons, List.not_mem_nil, or_false] at ht
    rcases ht with rfl | rfl | rfl
    · exact hw _ [wideLine] (by decide)
    · exact hw _ ["broken"] (by decide)
    · exact hw _ [] (by decide)
  · exact ((read_first_failure _ _ _).1 _).mpr (by decide +kernel)

end Controllers
end ControlGroups
