import ControlGroups.Proofs.Controllers.Containment
import ControlGroups.Proofs.Path.Climbing

/-! Groups that climb above the root of their hierarchy. Such a group is compared with the root of a
mount in its normal form, which no longer shows the climb. -/
namespace ControlGroups

namespace Mount
variable {m : Mount} {group group' : String}

theorem directoryOf_congr (h : (Path.mk group').normalize = (Path.mk group).normalize) :
    m.directoryOf group' = m.directoryOf group := by
  rw [directoryOf, directoryOf, h]

theorem not_escapes_of_isAbsolute (h : (Path.mk m.root).isAbsolute = true) : ¬ m.Escapes group := by
  intro he
  obtain ⟨j, k, -, -, hr, -⟩ := he
  have ho := Path.origin_normalize h
  rw [hr] at ho
  cases ho

theorem directoryOf_of_reaches {names : List String} (ha : (Path.mk m.root).isAbsolute = true)
    (h : m.Reaches group names) :
    m.directoryOf group = .ok ((Path.mk m.point).normalize.below names).toPath := by
  have hn : (Path.mk m.root).normalize ≠ ⟨.here 0, []⟩ := by
    intro hr
    have ho := Path.origin_normalize ha
    rw [hr] at ho
    cases ho
  have hs : (Path.mk group).normalize.relativeTo? (Path.mk m.root).normalize = some names :=
    (Path.Normal.relativeTo?_eq_some_iff (Path.named_normalize _) (Path.named_normalize _)).mpr
      (.inl ⟨h.2, fun hr => absurd hr hn⟩)
  rw [directoryOf_of_some hs, Path.Normal.walk_names _ h.1]

/-- From an absolute root, exactly the groups below it are shown. -/
theorem refuses_iff (ha : (Path.mk m.root).isAbsolute = true) :
    m.Refuses group ↔ ∀ names, ¬ m.Reaches group names := by
  constructor
  · intro hr names hn
    cases (directoryOf_of_reaches ha hn).symm.trans hr
  · intro hn
    rcases contains_of_not_escapes (not_escapes_of_isAbsolute ha) with ⟨names, hr, -⟩ | hr
    · exact absurd hr (hn names)
    · exact hr

end Mount

/-- Groups that lead to the same places for all controllers. -/
def Groups.Alike (groups groups' : Groups) : Prop :=
  ∀ s : String, groups'[s]?.map (fun group => (Path.mk group).normalize) =
    groups[s]?.map fun group => (Path.mk group).normalize

theorem Groups.Alike.refl (groups : Groups) : groups.Alike groups := fun _ => rfl

namespace Membership
variable {groups groups' : Groups} {c c' : Membership}

/-- One record keeps groups alike, if it gives them the same place under two names. -/
theorem alike_addTo (h : groups.Alike groups') (hc : c'.controllers = c.controllers)
    (hg : (Path.mk c'.group).normalize = (Path.mk c.group).normalize) :
    (c.addTo groups).Alike (c'.addTo groups') := by
  intro s
  rw [getElem?_addTo, getElem?_addTo, hc]
  split
  · simp [hg]
  · exact h s

theorem alike_foldl (h : groups.Alike groups') (memberships : List Membership) :
    Groups.Alike (memberships.foldl (fun groups m => m.addTo groups) groups)
      (memberships.foldl (fun groups m => m.addTo groups) groups') := by
  induction memberships generalizing groups groups' with
  | nil => exact h
  | cons c memberships ih => exact ih (alike_addTo h rfl rfl)

end Membership

namespace Controllers
variable {groups groups' : Groups}

theorem addOption_congr (h : groups.Alike groups') : addOption groups' = addOption groups := by
  funext m controllers option
  have ho := h option
  rw [addOption, addOption]
  cases hg : groups[option]? with
  | none =>
    rw [hg] at ho
    rw [Option.map_eq_none_iff.mp ho]
  | some group =>
    rw [hg] at ho
    obtain ⟨group', hg', hn⟩ := Option.map_eq_some_iff.mp ho
    rw [hg']
    exact congrArg (Except.map _) (Mount.directoryOf_congr hn)

theorem addMount_congr (h : groups.Alike groups') : addMount groups' = addMount groups := by
  funext controllers m
  rw [addMount, addMount, addOption_congr h]

/-- Membership files that name one group in two ways count as the same. -/
theorem read_eq_of_normalize_eq {fs fs' : FileSystem} {table membership : Path}
    {earlier later : List Membership} {c c' : Membership}
    (hc : Scan.Reads fs membership Membership.parse (earlier ++ c :: later))
    (hc' : Scan.Reads fs' membership Membership.parse (earlier ++ c' :: later))
    (hs : c'.controllers = c.controllers)
    (hg : (Path.mk c'.group).normalize = (Path.mk c.group).normalize)
    (ht : fs.AgreeOn fs' table) :
    read fs' table membership = read fs table membership := by
  have ha : (Membership.groupsOf (earlier ++ c :: later)).Alike
      (Membership.groupsOf (earlier ++ c' :: later)) := by
    rw [Membership.groupsOf, Membership.groupsOf, List.foldl_append, List.foldl_append]
    -- the groups are the same before the record, and alike from it on
    exact Membership.alike_foldl (Membership.alike_addTo (.refl _) hs hg) later
  rw [read_of_reads_membership hc, read_of_reads_membership hc', addMount_congr ha,
    Scan.foldFile_congr ht]

/-- A group that climbs above the root of its hierarchy is shown or refused like the group that a
climb leaves of it, and after its last such climb that group climbs no more. So a membership file
with the one group in place of the other gives the same directories or the same failure. -/
theorem climb_above_root_dropped (group : String) (before after : List String)
    (h : (Path.mk group).ClimbsOut before after) :
    (∀ m : Mount, m.directoryOf group = m.directoryOf (Path.ofRoot after).text) ∧
    (∀ m : Mount, (Path.mk m.root).isAbsolute = true →
      (∀ names, m.Reaches (Path.ofRoot after).text names →
        m.directoryOf group = .ok ((Path.mk m.point).normalize.below names).toPath) ∧
      (m.Refuses group ↔ ∀ names, ¬ m.Reaches (Path.ofRoot after).text names)) ∧
    (∀ (fs fs' : FileSystem) (table membership : Path) (id : UInt32) (controllers : List String)
      (earlier later : List Membership),
      Scan.Reads fs membership Membership.parse (earlier ++ ⟨id, controllers, group⟩ :: later) →
      Scan.Reads fs' membership Membership.parse
        (earlier ++ ⟨id, controllers, (Path.ofRoot after).text⟩ :: later) →
      fs.AgreeOn fs' table →
      read fs' table membership = read fs table membership) ∧
    ∃ before after, (Path.mk group).ClimbsOut before after ∧
      ∀ earlier later, ¬ (Path.ofRoot after).ClimbsOut earlier later := by
  have hn : (Path.mk (Path.ofRoot after).text).normalize = (Path.mk group).normalize :=
    h.normalize_eq.symm
  have hr : ∀ (m : Mount) (names : List String),
      m.Reaches (Path.ofRoot after).text names ↔ m.Reaches group names := by
    intro m names
    rw [Mount.Reaches, Mount.Reaches, hn]
  refine ⟨fun m => Mount.directoryOf_congr hn.symm, ?_, ?_, h.exists_last⟩
  · intro m ha
    simp only [hr]
    exact ⟨fun names => Mount.directoryOf_of_reaches ha, Mount.refuses_iff ha⟩
  · intro fs fs' table membership id controllers earlier later hc hc' ht
    exact read_eq_of_normalize_eq hc hc' rfl hn ht

/-- Files of one controller with a hierarchy that is mounted from its root. -/
def rootedFiles (group : String) : FileSystem where
  entries :=
    [(["mounts"], .file (Text.encode "1 1 0:1 / /mnt/x rw - cgroup c memory\n")),
      (["groups"], .file (Text.encode ("1:memory:" ++ group ++ "\n")))]
  workingDirectory := []

def rootedMount : Mount := ⟨1, 1, "0:1", "/", "/mnt/x", ["rw"], [], "cgroup", "c", ["memory"]⟩

theorem climbsOut_rootedFiles : (Path.mk "/../a").ClimbsOut [""] ["a"] :=
  ⟨by decide, by decide, rfl⟩

theorem reads_rootedFiles : Scan.Reads (rootedFiles "/../a") ⟨"groups"⟩ Membership.parse
    ([] ++ ⟨1, ["memory"], "/../a"⟩ :: []) :=
  ⟨_, rfl, by decide⟩

theorem climb_above_root_dropped_rootedFiles :
    read (rootedFiles "/a") ⟨"mounts"⟩ ⟨"groups"⟩ =
      read (rootedFiles "/../a") ⟨"mounts"⟩ ⟨"groups"⟩ := by
  obtain ⟨-, -, hread, -⟩ := climb_above_root_dropped "/../a" [""] ["a"] climbsOut_rootedFiles
  have hc : Scan.Reads (rootedFiles "/a") ⟨"groups"⟩ Membership.parse
      ([] ++ ⟨1, ["memory"], "/a"⟩ :: []) :=
    ⟨_, rfl, by decide⟩
  exact hread _ _ ⟨"mounts"⟩ ⟨"groups"⟩ 1 ["memory"] [] [] reads_rootedFiles hc rfl

/-- The group `/../a` of a controller whose hierarchy is mounted from its root has the directory of
the group `/a`. -/
theorem not_refused_rootedFiles : ∃ controllers,
    read (rootedFiles "/../a") ⟨"mounts"⟩ ⟨"groups"⟩ = .ok controllers ∧
      Scan.Reads (rootedFiles "/../a") ⟨"mounts"⟩ Mount.parse [rootedMount] ∧
      Scan.Reads (rootedFiles "/../a") ⟨"groups"⟩ Membership.parse [⟨1, ["memory"], "/../a"⟩] ∧
      rootedMount.root = "/" ∧ rootedMount.Provides "memory" ∧
      (Path.mk "/../a").ClimbsOut [""] ["a"] ∧ ¬ rootedMount.Refuses "/../a" ∧
      controllers["memory"]? = some ⟨"/mnt/x/a"⟩ := by
  have hn : ¬ rootedMount.Refuses "/../a" := by
    intro hr
    have hd : (rootedMount.directoryOf "/../a").toOption = some ⟨"/mnt/x/a"⟩ := by decide
    rw [hr] at hd
    cases hd
  have hv : (read (rootedFiles "/../a") ⟨"mounts"⟩ ⟨"groups"⟩).toOption.map (·["memory"]?) =
      some (some ⟨"/mnt/x/a"⟩) := by decide +kernel
  obtain ⟨controllers, h, hd⟩ := exists_ok_of_toOption_map hv
  exact ⟨controllers, h, ⟨_, rfl, by decide⟩, reads_rootedFiles, rfl, ⟨rfl, by decide⟩,
    climbsOut_rootedFiles, hn, hd⟩

end Controllers
end ControlGroups
