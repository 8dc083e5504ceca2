import Mathlib.Data.List.Induction
import ControlGroups.Controllers.Basic
import ControlGroups.Proofs.Scan.Folding

/-! Which records decide about a controller: the last membership that lists it and the last mount
of its hierarchy. Both files are folded with overwriting, so every fact here is an induction from
the end of a list of records. -/
namespace ControlGroups

/-- An element with a property after which no other element has it. -/
def IsLast {α : Type} (p : α → Prop) (l : List α) (x : α) : Prop :=
  p x ∧ ∃ before after, l = before ++ x :: after ∧ ∀ y ∈ after, ¬ p y

section Last
variable {α : Type} {p : α → Prop} {l : List α} {x y : α}

theorem not_isLast_nil : ¬ IsLast p [] x := by
  rintro ⟨-, before, after, h, -⟩
  simp at h

theorem isLast_concat_of_pos (hy : p y) : IsLast p (l ++ [y]) x ↔ x = y := by
  constructor
  · rintro ⟨-, before, after, h, hn⟩
    rcases List.eq_nil_or_concat after with rfl | ⟨after, z, rfl⟩
    · exact (List.append_singleton_inj.mp h).2.symm
    · -- the last element would stand after `x` and have the property
      rw [List.concat_eq_append, ← List.cons_append, ← List.append_assoc] at h
      have hz : y = z := (List.append_singleton_inj.mp h).2
      exact absurd hy (hn y (by simp [hz]))
  · rintro rfl
    exact ⟨hy, l, [], rfl, by simp⟩

theorem isLast_concat_of_neg (hy : ¬ p y) : IsLast p (l ++ [y]) x ↔ IsLast p l x := by
  constructor
  · rintro ⟨hx, before, after, h, hn⟩
    rcases List.eq_nil_or_concat after with rfl | ⟨after, z, rfl⟩
    · have hxy : y = x := (List.append_singleton_inj.mp h).2
      exact absurd (hxy ▸ hx) hy
    · rw [List.concat_eq_append, ← List.cons_append, ← List.append_assoc] at h
      refine ⟨hx, before, after, (List.append_singleton_inj.mp h).1, ?_⟩
      intro w hw
      exact hn w (by simp [hw])
  · rintro ⟨hx, before, after, rfl, hn⟩
    refine ⟨hx, before, after ++ [y], by simp, ?_⟩
    intro w hw
    rcases List.mem_append.mp hw with hw | hw
    · exact hn w hw
    · rwa [List.mem_singleton.mp hw]

theorem IsLast.mem (h : IsLast p l x) : x ∈ l := by
  obtain ⟨-, before, after, rfl, -⟩ := h
  simp

theorem exists_isLast (h : ∃ x ∈ l, p x) : ∃ x, IsLast p l x := by
  induction l using List.reverseRecOn with
  | nil => simp at h
  | append_singleton l y ih =>
    by_cases hy : p y
    · exact ⟨y, (isLast_concat_of_pos hy).mpr rfl⟩
    · obtain ⟨x, hx, hp⟩ := h
      have hl : x ∈ l := by
        rcases List.mem_append.mp hx with hx | hx
        · exact hx
        · exact absurd (List.mem_singleton.mp hx ▸ hp) hy
      obtain ⟨z, hz⟩ := ih ⟨x, hl, hp⟩
      exact ⟨z, (isLast_concat_of_neg hy).mpr hz⟩

end Last

/-- A membership that names a controller. -/
def Membership.Lists (controller : String) (c : Membership) : Prop := controller ∈ c.controllers

/-- A mount of the hierarchy of a controller. -/
def Mount.Provides (controller : String) (m : Mount) : Prop :=
  m.kind = Mount.controllerKind ∧ controller ∈ m.superOptions

namespace Membership

/-- The groups of some memberships, the later ones in place of the earlier ones. -/
def groupsOf (memberships : List Membership) : Groups :=
  memberships.foldl (fun groups m => m.addTo groups) ∅

theorem groupsOf_concat (memberships : List Membership) (c : Membership) :
    groupsOf (memberships ++ [c]) = c.addTo (groupsOf memberships) := by
  simp [groupsOf]

theorem getElem?_groupsOf (memberships : List Membership) (s group : String) :
    (groupsOf memberships)[s]? = some group ↔
      ∃ c, IsLast (Lists s) memberships c ∧ c.group = group := by
  induction memberships using List.reverseRecOn with
  | nil => simp [groupsOf, not_isLast_nil]
  | append_singleton memberships c ih =>
    rw [groupsOf_concat, getElem?_addTo]
    by_cases hc : s ∈ c.controllers
    · have hl : ∀ d, IsLast (Lists s) (memberships ++ [c]) d ↔ d = c :=
        fun d => isLast_concat_of_pos hc
      simp [hc, hl]
    · have hl : ∀ d, IsLast (Lists s) (memberships ++ [c]) d ↔ IsLast (Lists s) memberships d :=
        fun d => isLast_concat_of_neg hc
      rw [if_neg hc, ih]
      simp only [hl]

theorem readGroups_eq_ok_iff {fs : FileSystem} {path : Path} {groups : Groups} :
    readGroups fs path = .ok groups ↔ ∃ memberships, Scan.Reads fs path parse memberships ∧
      groupsOf memberships = groups := by
  rw [readGroups, Scan.foldFile_eq_ok_iff]
  refine exists_congr fun memberships => and_congr_right fun _ => ?_
  rw [Scan.foldlM_ok, Except.ok.injEq]
  rfl

end Membership

namespace Controllers
variable {groups : Groups} {m : Mount} {controllers next : Controllers} {s o : String}

theorem addOption_eq_ok_iff : addOption groups m controllers o = .ok next ↔
    groups[o]? = none ∧ next = controllers ∨
      ∃ group path, groups[o]? = some group ∧ m.directoryOf group = .ok path ∧
        next = controllers.insert o path := by
  rw [addOption]
  cases hg : groups[o]? with
  | none => simp [eq_comm]
  | some group =>
    simp only [map_eq_ok_iff]
    constructor
    · rintro ⟨path, hd, rfl⟩
      exact .inr ⟨group, path, rfl, hd, rfl⟩
    · rintro (⟨hn, -⟩ | ⟨group', path, hg', hd, rfl⟩)
      · simp at hn
      · rw [Option.some.injEq] at hg'
        exact ⟨path, hg' ▸ hd, rfl⟩

theorem getElem?_addOption_of_ne (h : addOption groups m controllers o = .ok next) (hs : s ≠ o) :
    next[s]? = controllers[s]? := by
  rcases addOption_eq_ok_iff.mp h with ⟨-, rfl⟩ | ⟨group, path, -, -, rfl⟩
  · rfl
  · simp [Std.TreeMap.getElem?_insert, Ne.symm hs]

theorem getElem?_addOption_of_none (h : addOption groups m controllers o = .ok next)
    (hg : groups[s]? = none) : next[s]? = controllers[s]? := by
  by_cases hs : s = o
  · subst s
    rcases addOption_eq_ok_iff.mp h with ⟨-, rfl⟩ | ⟨group, path, hg', -, -⟩
    · rfl
    · simp [hg] at hg'
  · exact getElem?_addOption_of_ne h hs

theorem foldlM_addOption_frame {options : List String}
    (h : options.foldlM (addOption groups m) controllers = .ok next)
    (hs : s ∉ options ∨ groups[s]? = none) : next[s]? = controllers[s]? := by
  induction options generalizing controllers with
  | nil =>
    cases h
    rfl
  | cons o options ih =>
    rw [List.foldlM_cons] at h
    obtain ⟨middle, hm, h⟩ := bind_eq_ok_iff.mp h
    have ho : middle[s]? = controllers[s]? := by
      rcases hs with hs | hs
      · exact getElem?_addOption_of_ne hm (fun he => hs (by simp [he]))
      · exact getElem?_addOption_of_none hm hs
    rw [ih h (hs.imp_left fun hs hm => hs (by simp [hm])), ho]

/-- An option that names a listed controller is translated, and no later option of the same mount
changes the result: the same option again is translated in the same way. -/
theorem foldlM_addOption_effect {options : List String} {group : String}
    (h : options.foldlM (addOption groups m) controllers = .ok next)
    (hs : s ∈ options) (hg : groups[s]? = some group) :
    ∃ path, m.directoryOf group = .ok path ∧ next[s]? = some path := by
  induction options generalizing controllers with
  | nil => simp at hs
  | cons o options ih =>
    rw [List.foldlM_cons] at h
    obtain ⟨middle, hm, h⟩ := bind_eq_ok_iff.mp h
    by_cases hr : s ∈ options
    · exact ih h hr
    · have ho : s = o := by simpa [hr] using hs
      subst o
      rcases addOption_eq_ok_iff.mp hm with ⟨hn, -⟩ | ⟨group', path, hg', hd, rfl⟩
      · simp [hg] at hn
      · rw [hg, Option.some.injEq] at hg'
        subst group'
        refine ⟨path, hd, ?_⟩
        rw [foldlM_addOption_frame h (.inl hr)]
        simp

theorem addMount_frame (h : addMount groups controllers m = .ok next)
    (hs : ¬ m.Provides s ∨ groups[s]? = none) : next[s]? = controllers[s]? := by
  by_cases hk : m.kind = Mount.controllerKind
  · rw [addMount, if_pos hk] at h
    exact foldlM_addOption_frame h (hs.imp_left fun hs hm => hs ⟨hk, hm⟩)
  · rw [addMount_of_ne hk, Except.ok.injEq] at h
    rw [h]

theorem addMount_effect {group : String} (h : addMount groups controllers m = .ok next)
    (hs : m.Provides s) (hg : groups[s]? = some group) :
    ∃ path, m.directoryOf group = .ok path ∧ next[s]? = some path := by
  rw [addMount, if_pos hs.1] at h
  exact foldlM_addOption_effect h hs.2 hg

/-- The last mount of the hierarchy of a listed controller gives its directory. -/
theorem getElem?_foldlM_addMount {mounts : List Mount} {path : Path}
    (h : mounts.foldlM (addMount groups) ∅ = .ok controllers) :
    controllers[s]? = some path ↔ ∃ m group, IsLast (Mount.Provides s) mounts m ∧
      groups[s]? = some group ∧ m.directoryOf group = .ok path := by
  induction mounts using List.reverseRecOn generalizing controllers with
  | nil =>
    cases h
    simp [not_isLast_nil]
  | append_singleton mounts m ih =>
    rw [List.foldlM_append] at h
    obtain ⟨middle, hm, h⟩ := bind_eq_ok_iff.mp h
    replace h : addMount groups middle m = .ok controllers := by simpa using h
    by_cases hp : m.Provides s
    · simp only [isLast_concat_of_pos hp]
      cases hg : groups[s]? with
      | none =>
        rw [addMount_frame h (.inr hg), ih hm]
        simp [hg]
      | some group =>
        obtain ⟨path', hd, hn⟩ := addMount_effect h hp hg
        simp [hn, hd]
    · simp only [isLast_concat_of_neg hp]
      rw [addMount_frame h (.inl hp), ih hm]

/-- A fold that goes through has translated the group of a listed controller under every mount of
its hierarchy. -/
theorem directoryOf_of_foldlM_addMount {mounts : List Mount} {group : String}
    (h : mounts.foldlM (addMount groups) controllers = .ok next) (hg : groups[s]? = some group)
    (hm : m ∈ mounts) (hp : m.Provides s) : ∃ path, m.directoryOf group = .ok path := by
  induction mounts generalizing controllers with
  | nil => simp at hm
  | cons m' mounts ih =>
    rw [List.foldlM_cons] at h
    obtain ⟨middle, ha, h⟩ := bind_eq_ok_iff.mp h
    rcases List.mem_cons.mp hm with rfl | hm
    · obtain ⟨path, hd, -⟩ := addMount_effect ha hp hg
      exact ⟨path, hd⟩
    · exact ih h hm

/-- Mounts of other kinds may stand anywhere and be left out. -/
theorem foldlM_addMount_filter (mounts : List Mount) (controllers : Controllers) :
    (mounts.filter (·.kind = Mount.controllerKind)).foldlM (addMount groups) controllers =
      mounts.foldlM (addMount groups) controllers := by
  induction mounts generalizing controllers with
  | nil => rfl
  | cons m mounts ih =>
    rw [List.foldlM_cons]
    by_cases hk : m.kind = Mount.controllerKind
    · rw [List.filter_cons_of_pos (by simpa using hk), List.foldlM_cons]
      apply bind_congr
      intro next
      exact ih next
    · rw [List.filter_cons_of_neg (by simpa using hk), addMount_of_ne hk, ok_bind, ih]

theorem read_of_reads_membership {fs : FileSystem} {table membership : Path}
    {memberships : List Membership}
    (hc : Scan.Reads fs membership Membership.parse memberships) :
    read fs table membership =
      Scan.foldFile fs table Mount.parse (addMount (Membership.groupsOf memberships)) ∅ := by
  rw [read, Membership.readGroups_eq_ok_iff.mpr ⟨memberships, hc, rfl⟩, ok_bind]

theorem read_of_reads {fs : FileSystem} {table membership : Path} {mounts : List Mount}
    {memberships : List Membership} (hm : Scan.Reads fs table Mount.parse mounts)
    (hc : Scan.Reads fs membership Membership.parse memberships) :
    read fs table membership =
      mounts.foldlM (addMount (Membership.groupsOf memberships)) ∅ := by
  rw [read_of_reads_membership hc, Scan.foldFile_of_reads hm]

theorem read_eq_ok_iff {fs : FileSystem} {table membership : Path} :
    read fs table membership = .ok controllers ↔ ∃ memberships mounts,
      Scan.Reads fs membership Membership.parse memberships ∧
      Scan.Reads fs table Mount.parse mounts ∧
      mounts.foldlM (addMount (Membership.groupsOf memberships)) ∅ = .ok controllers := by
  constructor
  · intro h
    obtain ⟨groups, hg, hf⟩ := bind_eq_ok_iff.mp h
    obtain ⟨memberships, hc, rfl⟩ := Membership.readGroups_eq_ok_iff.mp hg
    obtain ⟨mounts, hm, hf⟩ := Scan.foldFile_eq_ok_iff.mp hf
    exact ⟨memberships, mounts, hc, hm, hf⟩
  · rintro ⟨memberships, mounts, hc, hm, hf⟩
    rw [read_of_reads hm hc, hf]

theorem getElem?_eq_some_iff_isLast {memberships : List Membership} {mounts : List Mount}
    (h : mounts.foldlM (addMount (Membership.groupsOf memberships)) ∅ = .ok controllers)
    (s : String) (path : Path) :
    controllers[s]? = some path ↔
      ∃ m c, IsLast (Mount.Provides s) mounts m ∧ IsLast (Membership.Lists s) memberships c ∧
        m.directoryOf c.group = .ok path := by
  rw [getElem?_foldlM_addMount h]
  simp only [Membership.getElem?_groupsOf]
  constructor
  · rintro ⟨m, _, hp, ⟨c, hl, rfl⟩, hd⟩
    exact ⟨m, c, hp, hl, hd⟩
  · rintro ⟨m, c, hp, hl, hd⟩
    exact ⟨m, c.group, hp, ⟨c, hl, rfl⟩, hd⟩

/-- A controller has a directory exactly where a membership lists it and a mount provides it. The
directory is that of the group of the last such membership under the last such mount. Mounts of
other kinds can be added, left out and moved without effect. -/
theorem read_last_wins {fs : FileSystem} {table membership : Path}
    (h : read fs table membership = .ok controllers) :
    ∃ mounts memberships, Scan.Reads fs table Mount.parse mounts ∧
      Scan.Reads fs membership Membership.parse memberships ∧
      (∀ s, (∃ path, controllers[s]? = some path) ↔
        (∃ c ∈ memberships, s ∈ c.controllers) ∧
          ∃ m ∈ mounts, m.kind = "cgroup" ∧ s ∈ m.superOptions) ∧
      (∀ s path, controllers[s]? = some path ↔
        ∃ m c, IsLast (fun m => m.kind = "cgroup" ∧ s ∈ m.superOptions) mounts m ∧
          IsLast (fun c => s ∈ c.controllers) memberships c ∧
          m.directoryOf c.group = .ok path) ∧
      ∀ fs' table' membership' mounts', Scan.Reads fs' table' Mount.parse mounts' →
        Scan.Reads fs' membership' Membership.parse memberships →
        mounts'.filter (·.kind = "cgroup") = mounts.filter (·.kind = "cgroup") →
        read fs' table' membership' = .ok controllers := by
  obtain ⟨memberships, mounts, hc, hm, hf⟩ := read_eq_ok_iff.mp h
  have hlast := getElem?_eq_some_iff_isLast hf
  refine ⟨mounts, memberships, hm, hc, ?_, hlast, ?_⟩
  · intro s
    constructor
    · rintro ⟨path, hs⟩
      obtain ⟨m, c, hp, hl, -⟩ := (hlast s path).mp hs
      exact ⟨⟨c, hl.mem, hl.1⟩, m, hp.mem, hp.1⟩
    · rintro ⟨hl, hp⟩
      obtain ⟨c, hl⟩ := exists_isLast hl
      obtain ⟨m, hp⟩ := exists_isLast hp
      -- the fold went through, so it translated this group when it came to this mount
      have hg := (Membership.getElem?_groupsOf memberships s c.group).mpr ⟨c, hl, rfl⟩
      obtain ⟨path, hd⟩ := directoryOf_of_foldlM_addMount hf hg hp.mem hp.1
      exact ⟨path, (hlast s path).mpr ⟨m, c, hp, hl, hd⟩⟩
  · intro fs' table' membership' mounts' hm' hc' hk
    refine read_eq_ok_iff.mpr ⟨memberships, mounts', hc', hm', ?_⟩
    rw [← foldlM_addMount_filter, ← hf, ← foldlM_addMount_filter mounts]
    exact congrArg (List.foldlM _ _) hk

/-- Files in which controllers, options and mounts repeat and the unified hierarchy is listed. -/
def overlappingFiles : FileSystem where
  entries :=
    [(["mounts"], .file (Text.encode ("1 1 0:1 / /a rw - cgroup c rw,,cpu,cpu\n" ++
        "2 1 0:1 /g /b rw - cgroup c cpu\n3 1 0:1 / /d rw - cgroup2 c cpu"))),
      (["groups"], .file (Text.encode "0::/h\n5:cpu:/g\n6:cpu,cpu:/g/x/../y\n"))]
  workingDirectory := []

theorem read_last_wins_overlappingFiles :
    ∃ controllers, read overlappingFiles ⟨"mounts"⟩ ⟨"groups"⟩ = .ok controllers ∧
      controllers["cpu"]? = some ⟨"/b/y"⟩ ∧ controllers[""]? = some ⟨"/a/h"⟩ ∧
      ∃ mounts memberships m c, Scan.Reads overlappingFiles ⟨"mounts"⟩ Mount.parse mounts ∧
        Scan.Reads overlappingFiles ⟨"groups"⟩ Membership.parse memberships ∧
        IsLast (fun m => m.kind = "cgroup" ∧ "cpu" ∈ m.superOptions) mounts m ∧
        IsLast (fun c => "cpu" ∈ c.controllers) memberships c ∧
        m.directoryOf c.group = .ok ⟨"/b/y"⟩ := by
  have hv : (read overlappingFiles ⟨"mounts"⟩ ⟨"groups"⟩).toOption.map
      (fun controllers => (controllers["cpu"]?, controllers[""]?)) =
        some (some ⟨"/b/y"⟩, some ⟨"/a/h"⟩) := by decide +kernel
  obtain ⟨controllers, h, hv⟩ := exists_ok_of_toOption_map hv
  obtain ⟨hcpu, hempty⟩ := Prod.mk.inj hv
  obtain ⟨mounts, memberships, hm, hc, -, hlast, -⟩ := read_last_wins h
  obtain ⟨m, c, hp, hl, hd⟩ := (hlast "cpu" ⟨"/b/y"⟩).mp hcpu
  exact ⟨controllers, h, hcpu, hempty, mounts, memberships, m, c, hm, hc, hp, hl, hd⟩

end Controllers
end ControlGroups
