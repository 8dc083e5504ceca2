import ControlGroups.Proofs.Controllers.LastWins
import ControlGroups.Proofs.Path.Relative

/-! Where the directories of controllers lie. A directory lies under the mount point of its
hierarchy unless the root of the mount is only climbs and the group climbs further. -/
namespace ControlGroups

/-- A path in its normal spelling to a place, or to one that some names lead to from there. -/
def Path.LiesUnder (p place : Path) : Prop :=
  ∃ names, (∀ name ∈ names, IsName name) ∧ p = (place.normalize.below names).toPath

namespace Mount
variable {m : Mount} {group : String} {path : Path}

/-- The failure to show a group under a mount. -/
def refusal (m : Mount) (group : String) : Error :=
  .notExposed ⟨m.point⟩ (Path.mk m.root).clean (Path.mk group).clean

/-- A group to which some names lead from the root of a mount. -/
def Reaches (m : Mount) (group : String) (names : List String) : Prop :=
  (∀ name ∈ names, Path.IsName name) ∧
    (Path.mk group).normalize = (Path.mk m.root).normalize.below names

/-- A group further up than a root that consists of climbs alone. -/
def Escapes (m : Mount) (group : String) : Prop :=
  (Path.mk group).normalize.Escapes (Path.mk m.root).normalize

/-- A group that a mount does not show. -/
def Refuses (m : Mount) (group : String) : Prop := m.directoryOf group = .error (m.refusal group)

/-- The names that reach a group from the root of a mount lead from its mount point to the
directory of the group, or the group is refused. -/
def Contains (m : Mount) (group : String) : Prop :=
  (∃ names, m.Reaches group names ∧
    m.directoryOf group = .ok ((Path.mk m.point).normalize.below names).toPath) ∨
  m.Refuses group

theorem directoryOf_of_some {rest : List String}
    (h : (Path.mk group).normalize.relativeTo? (Path.mk m.root).normalize = some rest) :
    m.directoryOf group = .ok ((Path.mk m.point).normalize.walk rest).toPath := by
  rw [directoryOf, h]

theorem refuses_of_none
    (h : (Path.mk group).normalize.relativeTo? (Path.mk m.root).normalize = none) :
    m.Refuses group := by
  rw [Refuses, directoryOf, h]
  rfl

theorem not_escapes_of_reaches {names : List String} (h : m.Reaches group names) :
    ¬ m.Escapes group := by
  rintro ⟨j, k, -, hlt, hr, hk⟩
  rw [h.2, hr] at hk
  have hjk : j = k := by simpa [Path.Normal.below] using hk
  omega

/-- A group that escapes is not refused: its climbs are followed from the mount point. -/
theorem directoryOf_of_escapes (h : m.Escapes group) :
    ∃ climbs, 0 < climbs ∧ m.directoryOf group = .ok ((Path.mk m.point).normalize.walk
      (List.replicate climbs ".." ++ (Path.mk group).normalize.names)).toPath := by
  obtain ⟨j, k, hj, hlt, hr, hk⟩ := h
  refine ⟨k - j, by omega, directoryOf_of_some ?_⟩
  apply (Path.Normal.relativeTo?_eq_some_iff (Path.named_normalize _) (Path.named_normalize _)).mpr
  exact .inr ⟨j, k, hj, hlt, hr, hk, rfl⟩

theorem contains_of_not_escapes (h : ¬ m.Escapes group) : m.Contains group := by
  have hg := Path.named_normalize ⟨group⟩
  cases hr : (Path.mk group).normalize.relativeTo? (Path.mk m.root).normalize with
  | none => exact .inr (refuses_of_none hr)
  | some rest =>
    rcases (Path.Normal.relativeTo?_eq_some_iff hg (Path.named_normalize _)).mp hr with
      ⟨hb, -⟩ | ⟨j, k, hj, hlt, hroot, hk, -⟩
    · have hn : ∀ name ∈ rest, Path.IsName name := by
        intro name hm
        apply hg
        rw [hb]
        exact List.mem_append_right _ hm
      refine .inl ⟨rest, ⟨hn, hb⟩, ?_⟩
      rw [directoryOf_of_some hr, Path.Normal.walk_names _ hn]
    · exact absurd ⟨j, k, hj, hlt, hroot, hk⟩ h

/-- A group is shown in its place or refused exactly where it does not escape. -/
theorem contains_iff : m.Contains group ↔ ¬ m.Escapes group := by
  refine ⟨?_, contains_of_not_escapes⟩
  rintro (⟨names, hn, -⟩ | hr) he
  · exact not_escapes_of_reaches hn he
  · obtain ⟨climbs, -, ho⟩ := directoryOf_of_escapes he
    cases ho.symm.trans hr

theorem Contains.liesUnder (h : m.Contains group) (hd : m.directoryOf group = .ok path) :
    path.LiesUnder ⟨m.point⟩ := by
  rcases h with ⟨names, hn, ho⟩ | hr
  · cases hd.symm.trans ho
    exact ⟨names, hn.1, rfl⟩
  · cases hd.symm.trans hr

theorem refuses_of_directoryOf_eq_error {e : Error} (h : m.directoryOf group = .error e) :
    m.Refuses group ∧ e = m.refusal group := by
  cases hr : (Path.mk group).normalize.relativeTo? (Path.mk m.root).normalize with
  | none =>
    have hd := refuses_of_none hr
    cases h.symm.trans hd
    exact ⟨hd, rfl⟩
  | some rest => cases h.symm.trans (directoryOf_of_some hr)

end Mount

namespace Controllers
variable {groups : Groups} {m : Mount} {controllers : Controllers} {s : String}

theorem addMount_eq_error {e : Error} (h : addMount groups controllers m = .error e) :
    ∃ s group, m.Provides s ∧ groups[s]? = some group ∧ m.directoryOf group = .error e := by
  rw [addMount] at h
  split at h
  · rename_i hk
    obtain ⟨s, hs, before, ho⟩ := exists_of_foldlM_eq_error h
    rw [addOption] at ho
    split at ho
    · cases ho
    · rename_i group hg
      exact ⟨s, group, ⟨hk, hs⟩, hg, map_eq_error_iff.mp ho⟩
  · cases h

/-- A mount of some controller and the membership that decides about its group. -/
def Pairs (mounts : List Mount) (memberships : List Membership) (m : Mount)
    (c : Membership) : Prop :=
  ∃ s, m ∈ mounts ∧ m.Provides s ∧ IsLast (Membership.Lists s) memberships c

section Tables
variable {fs : FileSystem} {table membership : Path} {mounts : List Mount}
  {memberships : List Membership} {c : Membership}

theorem read_of_refuses (hm : Scan.Reads fs table Mount.parse mounts)
    (hc : Scan.Reads fs membership Membership.parse memberships)
    (hp : Pairs mounts memberships m c) (hr : m.Refuses c.group) :
    ∃ m' c', Pairs mounts memberships m' c' ∧ m'.Refuses c'.group ∧
      read fs table membership = .error (m'.refusal c'.group) := by
  obtain ⟨s, hmem, hs, hl⟩ := hp
  rw [read_of_reads hm hc]
  cases hf : mounts.foldlM (addMount (Membership.groupsOf memberships)) ∅ with
  | ok controllers =>
    have hg := (Membership.getElem?_groupsOf memberships s c.group).mpr ⟨c, hl, rfl⟩
    obtain ⟨path, hd⟩ := directoryOf_of_foldlM_addMount hf hg hmem hs
    cases hd.symm.trans hr
  | error e =>
    obtain ⟨m', hmem', before, ha⟩ := exists_of_foldlM_eq_error hf
    obtain ⟨s', group, hs', hg, hd⟩ := addMount_eq_error ha
    obtain ⟨c', hl', rfl⟩ := (Membership.getElem?_groupsOf memberships s' group).mp hg
    obtain ⟨hr', rfl⟩ := Mount.refuses_of_directoryOf_eq_error hd
    exact ⟨m', c', ⟨s', hmem', hs', hl'⟩, hr', rfl⟩

end Tables

/-- A group is contained exactly where it does not escape. So a stored directory lies under the
mount point of its record, or its group escapes and the directory is what climbing from the mount
point leads to; and tables with a group to refuse are refused with such a group. -/
theorem read_contained_iff (fs : FileSystem) (table membership : Path) :
    (∀ (m : Mount) (group : String), m.Contains group ↔ ¬ m.Escapes group) ∧
    (∀ controllers, read fs table membership = .ok controllers →
      ∃ mounts memberships, Scan.Reads fs table Mount.parse mounts ∧
        Scan.Reads fs membership Membership.parse memberships ∧
        ∀ s path, controllers[s]? = some path →
          ∃ m c, IsLast (fun m => m.kind = "cgroup" ∧ s ∈ m.superOptions) mounts m ∧
            IsLast (fun c => s ∈ c.controllers) memberships c ∧
            m.directoryOf c.group = .ok path ∧
            (¬ m.Escapes c.group → path.LiesUnder ⟨m.point⟩) ∧
            (m.Escapes c.group → ∃ climbs, 0 < climbs ∧
              path = ((Path.mk m.point).normalize.walk
                (List.replicate climbs ".." ++ (Path.mk c.group).normalize.names)).toPath)) ∧
    (∀ mounts memberships, Scan.Reads fs table Mount.parse mounts →
      Scan.Reads fs membership Membership.parse memberships →
      ∀ m c, Pairs mounts memberships m c → m.Refuses c.group →
        ∃ m' c', Pairs mounts memberships m' c' ∧ m'.Refuses c'.group ∧
          read fs table membership = .error (m'.refusal c'.group)) := by
  refine ⟨fun _ _ => Mount.contains_iff, ?_,
    fun _ _ hm hc _ _ hp hr => read_of_refuses hm hc hp hr⟩
  intro controllers h
  obtain ⟨memberships, mounts, hc, hm, hf⟩ := read_eq_ok_iff.mp h
  refine ⟨mounts, memberships, hm, hc, ?_⟩
  intro s path hs
  obtain ⟨m, c, hp, hl, hd⟩ := (getElem?_eq_some_iff_isLast hf s path).mp hs
  refine ⟨m, c, hp, hl, hd, ?_, ?_⟩
  · intro he
    exact (Mount.contains_of_not_escapes he).liesUnder hd
  · intro he
    obtain ⟨climbs, hpos, ho⟩ := Mount.directoryOf_of_escapes he
    rw [ho, Except.ok.injEq] at hd
    exact ⟨climbs, hpos, hd.symm⟩

/-- Files of one controller whose group escapes from its mount. -/
def escapingFiles : FileSystem where
  entries :=
    [(["mounts"], .file (Text.encode "1 1 0:1 .. /mnt/x rw - cgroup c memory\n")),
      (["groups"], .file (Text.encode "1:memory:../../a\n"))]
  workingDirectory := []

/-- The directory of a controller whose only mount point is `/mnt/x` is `/mnt/a`. -/
theorem not_liesUnder_escapingFiles : ∃ controllers m,
    read escapingFiles ⟨"mounts"⟩ ⟨"groups"⟩ = .ok controllers ∧
      Scan.Reads escapingFiles ⟨"mounts"⟩ Mount.parse [m] ∧ m.point = "/mnt/x" ∧
      controllers["memory"]? = some ⟨"/mnt/a"⟩ ∧ ¬ Path.LiesUnder ⟨"/mnt/a"⟩ ⟨m.point⟩ := by
  have hv : (read escapingFiles ⟨"mounts"⟩ ⟨"groups"⟩).toOption.map (·["memory"]?) =
      some (some ⟨"/mnt/a"⟩) := by decide +kernel
  obtain ⟨controllers, h, hd⟩ := exists_ok_of_toOption_map hv
  refine ⟨controllers, ⟨1, 1, "0:1", "..", "/mnt/x", ["rw"], [], "cgroup", "c", ["memory"]⟩, h,
    ⟨_, rfl, by decide⟩, rfl, hd, ?_⟩
  rintro ⟨names, hn, he⟩
  have hp : (Path.mk "/mnt/a").normalize = ⟨.root, ["mnt", "a"]⟩ := by decide
  have hq : (Path.mk "/mnt/x").normalize = ⟨.root, ["mnt", "x"]⟩ := by decide
  rw [he, hq, Path.normalize_toPath] at hp
  · simp [Path.Normal.below] at hp
  · rw [← hq]
    exact (Path.named_normalize _).below hn

end Controllers
end ControlGroups
