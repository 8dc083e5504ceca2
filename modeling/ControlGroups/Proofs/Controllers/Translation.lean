import ControlGroups.Proofs.Controllers.Truncation
import ControlGroups.Proofs.Path.Entries
import ControlGroups.Proofs.Path.Joining

/-! Where a mount with an absolute root shows groups. The names that lead from the root to a group
lead from the mount point to its directory, so the group can be told from the directory. -/
namespace ControlGroups

/-- A path in its normal spelling, made of the entries of a place and some names behind them. -/
structure Path.Continues (p place : Path) (names : List String) : Prop where
  isAbsolute_eq : p.isAbsolute = place.isAbsolute
  entries_eq : p.entries = place.clean.entries ++ names
  clean_eq : p.clean = p

namespace Path
variable {p q place : Path} {names : List String}

theorem entries_clean_of_isAbsolute (h : p.isAbsolute = true) :
    p.clean.entries = p.normalize.names := by
  rw [entries_clean, Normal.route, origin_normalize h]

/-- Names lead to one place only. -/
theorem continues_iff (h : ∀ name ∈ names, IsName name) :
    p.Continues place names ↔ p = (place.normalize.below names).toPath := by
  have hn : (place.normalize.below names).Named := (named_normalize place).below h
  have he : (place.normalize.below names).toPath.entries = place.clean.entries ++ names := by
    rw [hn.entries_toPath, Normal.route_below, entries_clean]
  have ha : (place.normalize.below names).toPath.isAbsolute = place.isAbsolute :=
    hn.isAbsolute_toPath.trans (isAbsolute_normalize place)
  constructor
  · rintro ⟨hpa, hpe, hpc⟩
    exact eq_of_entries_eq hpc hn.clean_toPath (hpa.trans ha.symm) (hpe.trans he.symm)
  · rintro rfl
    exact ⟨ha, he, hn.clean_toPath⟩

/-- A relative path without a climb leads down by its entries. -/
theorem normalize_join_of_no_climb (p : Path) (ha : q.isAbsolute = false) (hc : ".." ∉ q.entries) :
    (p.join q).normalize = p.normalize.below q.entries := by
  have hn : ∀ name ∈ q.entries, IsName name := fun name hm =>
    isName_of_mem_entries hm fun he => hc (he ▸ hm)
  rw [normalize_join p ha, ← Normal.walk_filter, ← Normal.walk_names _ hn]
  rfl

/-- Names with slashes between them, as one relative path. -/
theorem entries_joinFields (h : ∀ name ∈ names, IsName name) :
    (Path.mk (Text.joinFields '/' names)).isAbsolute = false ∧
      (Path.mk (Text.joinFields '/' names)).entries = names := by
  cases names with
  | nil => exact ⟨rfl, rfl⟩
  | cons first rest =>
    have hf := h first List.mem_cons_self
    have hs : ∀ name ∈ first :: rest, '/' ∉ name.toList := fun name hm => (h name hm).no_slash
    have hi : ∀ name ∈ first :: rest, (!isIdle name) = true := by
      intro name hm
      simp [isIdle_eq_false_iff.mpr ⟨(h name hm).ne_empty, (h name hm).ne_dot⟩]
    refine ⟨joinFields_isAbsolute rest hf.ne_empty hf.no_slash, ?_⟩
    rw [entries, pieces, Text.fields_joinFields (List.cons_ne_nil first rest) hs,
      List.filter_eq_self.mpr hi]

theorem clean_join_joinFields (p : Path) (h : ∀ name ∈ names, IsName name) :
    (p.join ⟨Text.joinFields '/' names⟩).clean = (p.normalize.below names).toPath := by
  obtain ⟨ha, he⟩ := entries_joinFields h
  have hc : ".." ∉ (Path.mk (Text.joinFields '/' names)).entries := by
    rw [he]
    exact fun hm => (h _ hm).ne_climb rfl
  rw [clean, normalize_join_of_no_climb p ha hc, he]

end Path

namespace Mount
variable {m : Mount} {group group' : String} {path : Path}

/-- A group to whose entries those of the root of a mount and some more names add up. -/
def Exposes (m : Mount) (group : String) (names : List String) : Prop :=
  (Path.mk group).isAbsolute = true ∧
    (Path.mk group).clean.entries = (Path.mk m.root).clean.entries ++ names

/-- The group whose directory has some path under a mount. -/
def groupAt (m : Mount) (path : Path) : Path :=
  ((Path.mk m.root).normalize.below
    (path.entries.drop (Path.mk m.point).clean.entries.length)).toPath

/-- The mount of what stands at some path below the root of another, at that path below its mount
point. -/
def within (m : Mount) (x : Path) : Mount :=
  { m with
    root := ((Path.mk m.root).join x).text
    point := ((Path.mk m.point).join x).text }

theorem exposes_iff_reaches {names : List String} (ha : (Path.mk m.root).isAbsolute = true) :
    m.Exposes group names ↔ m.Reaches group names := by
  constructor
  · rintro ⟨hg, he⟩
    rw [Path.entries_clean_of_isAbsolute hg, Path.entries_clean_of_isAbsolute ha] at he
    have hn : ∀ name ∈ names, Path.IsName name := by
      intro name hm
      apply Path.named_normalize ⟨group⟩
      rw [he]
      exact List.mem_append_right _ hm
    refine ⟨hn, ?_⟩
    have hgo := Path.origin_normalize hg
    have hro := Path.origin_normalize ha
    rw [Path.Normal.below, ← he, hro, ← hgo]
  · rintro ⟨-, hr⟩
    have hg : (Path.mk group).isAbsolute = true := by
      rw [← Path.isAbsolute_normalize, hr]
      exact (Path.isAbsolute_normalize _).trans ha
    refine ⟨hg, ?_⟩
    rw [Path.entries_clean_of_isAbsolute hg, Path.entries_clean_of_isAbsolute ha, hr]
    rfl

theorem directoryOf_eq_ok_iff (ha : (Path.mk m.root).isAbsolute = true) :
    m.directoryOf group = .ok path ↔
      ∃ names, m.Exposes group names ∧ path.Continues ⟨m.point⟩ names := by
  constructor
  · intro h
    rcases contains_of_not_escapes (not_escapes_of_isAbsolute ha) with ⟨names, hn, hd⟩ | hr
    · cases h.symm.trans hd
      exact ⟨names, (exposes_iff_reaches ha).mpr hn, (Path.continues_iff hn.1).mpr rfl⟩
    · cases h.symm.trans hr
  · rintro ⟨names, hn, hp⟩
    have hr := (exposes_iff_reaches ha).mp hn
    rw [directoryOf_of_reaches ha hr, (Path.continues_iff hr.1).mp hp]

theorem directoryOf_eq_error_iff {e : Error} (ha : (Path.mk m.root).isAbsolute = true) :
    m.directoryOf group = .error e ↔ (∀ names, ¬ m.Exposes group names) ∧ e = m.refusal group := by
  constructor
  · intro h
    obtain ⟨hr, he⟩ := refuses_of_directoryOf_eq_error h
    refine ⟨fun names hn => ?_, he⟩
    exact (refuses_iff ha).mp hr names ((exposes_iff_reaches ha).mp hn)
  · rintro ⟨hn, rfl⟩
    exact (refuses_iff ha).mpr fun names hr => hn names ((exposes_iff_reaches ha).mpr hr)

/-- A group is told from its directory. -/
theorem groupAt_of_directoryOf (ha : (Path.mk m.root).isAbsolute = true)
    (h : m.directoryOf group = .ok path) : m.groupAt path = (Path.mk group).clean := by
  obtain ⟨names, hn, hp⟩ := (directoryOf_eq_ok_iff ha).mp h
  obtain ⟨-, hg⟩ := (exposes_iff_reaches ha).mp hn
  rw [groupAt, hp.entries_eq, List.drop_left, ← hg, Path.clean]

/-- What a mount shows of a group, a mount of more of the hierarchy shows at the same path. -/
theorem directoryOf_of_within {x : Path} (ha : (Path.mk m.root).isAbsolute = true)
    (hx : x.isAbsolute = false) (hc : ".." ∉ x.entries)
    (h : (m.within x).directoryOf group = .ok path) : m.directoryOf group = .ok path := by
  have hroot := Path.normalize_join_of_no_climb ⟨m.root⟩ hx hc
  have hpoint := Path.normalize_join_of_no_climb ⟨m.point⟩ hx hc
  have hxn : ∀ name ∈ x.entries, Path.IsName name := fun name hm =>
    Path.isName_of_mem_entries hm fun he => hc (he ▸ hm)
  have hwa : (Path.mk (m.within x).root).isAbsolute = true := by
    rw [← Path.isAbsolute_normalize]
    exact (congrArg Path.Normal.isAbsolute hroot).trans ((Path.isAbsolute_normalize _).trans ha)
  obtain ⟨names, hn, hp⟩ := (directoryOf_eq_ok_iff hwa).mp h
  obtain ⟨hnames, hg⟩ := (exposes_iff_reaches hwa).mp hn
  have hr : m.Reaches group (x.entries ++ names) := by
    refine ⟨?_, ?_⟩
    · intro name hm
      rcases List.mem_append.mp hm with hm | hm
      · exact hxn name hm
      · exact hnames name hm
    · rw [hg, ← Path.Normal.below_below, ← hroot]
      rfl
  rw [directoryOf_of_reaches ha hr, (Path.continues_iff hnames).mp hp, ← Path.Normal.below_below,
    ← hpoint]
  rfl

/-- From an absolute root a mount shows exactly the groups below the root, each at the names that
lead to it, and refuses the others. So a directory tells its group, groups of one directory are
one, and a mount of less of the hierarchy shows no group elsewhere. -/
theorem directoryOf_exact (m : Mount) (h : (Path.mk m.root).isAbsolute = true) :
    (∀ group path, m.directoryOf group = .ok path ↔
      ∃ names, m.Exposes group names ∧ path.Continues ⟨m.point⟩ names) ∧
    (∀ group names, m.Exposes group names → m.directoryOf group =
      .ok ((Path.mk m.point).join ⟨Text.joinFields '/' names⟩).clean) ∧
    (∀ group e, m.directoryOf group = .error e ↔ (∀ names, ¬ m.Exposes group names) ∧
      e = .notExposed ⟨m.point⟩ (Path.mk m.root).clean (Path.mk group).clean) ∧
    (∀ group path, m.directoryOf group = .ok path → m.groupAt path = (Path.mk group).clean) ∧
    (∀ group group' path, m.directoryOf group = .ok path → m.directoryOf group' = .ok path →
      (Path.mk group).clean = (Path.mk group').clean) ∧
    (∀ x : Path, x.isAbsolute = false → ".." ∉ x.entries → ∀ group path,
      (m.within x).directoryOf group = .ok path → m.directoryOf group = .ok path) := by
  refine ⟨fun _ _ => directoryOf_eq_ok_iff h, ?_, fun _ _ => directoryOf_eq_error_iff h,
    fun _ _ => groupAt_of_directoryOf h, ?_, fun _ hx hc _ _ => directoryOf_of_within h hx hc⟩
  · intro group names hn
    have hr := (exposes_iff_reaches h).mp hn
    rw [directoryOf_of_reaches h hr, Path.clean_join_joinFields _ hr.1]
  · intro group group' path hg hg'
    rw [← groupAt_of_directoryOf h hg, groupAt_of_directoryOf h hg']

/-- A mount of a part of a hierarchy. -/
def partialMount : Mount :=
  ⟨1, 1, "0:1", "/a/./b", "mnt//x/..", ["rw"], [], "cgroup", "c", ["memory"]⟩

theorem directoryOf_exact_partialMount :
    partialMount.directoryOf "/a//b/c/d/.." = .ok ⟨"mnt/c"⟩ ∧
      partialMount.groupAt ⟨"mnt/c"⟩ = ⟨"/a/b/c"⟩ ∧
      partialMount.directoryOf "/a/bc" = .error (.notExposed ⟨"mnt//x/.."⟩ ⟨"/a/b"⟩ ⟨"/a/bc"⟩) := by
  obtain ⟨hok, -, herror, hback, -, -⟩ := directoryOf_exact partialMount (by decide)
  have hd : partialMount.directoryOf "/a//b/c/d/.." = .ok ⟨"mnt/c"⟩ :=
    (hok _ _).mpr ⟨["c"], ⟨by decide, by decide⟩, ⟨by decide, by decide, by decide⟩⟩
  refine ⟨hd, ?_, ?_⟩
  · rw [hback _ _ hd]
    decide
  · refine (herror _ _).mpr ⟨?_, by decide⟩
    rintro names ⟨-, he⟩
    have hg : (Path.mk "/a/bc").clean.entries = ["a", "bc"] := by decide
    have hr : (Path.mk partialMount.root).clean.entries = ["a", "b"] := by decide
    rw [hg, hr] at he
    simp at he

end Mount
end ControlGroups
