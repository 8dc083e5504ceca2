import ControlGroups.Path.Component
import ControlGroups.Proofs.Path.Route

/-! The pieces of a path that lead somewhere. A walk depends on no others, and those of a normal
spelling are its route, so a path in its normal spelling is known by them. -/
namespace ControlGroups.Path

variable {p q : Path} {n : Normal}

theorem isIdle_iff {piece : String} : isIdle piece = true ↔ piece = "" ∨ piece = "." := by
  simp [isIdle]

theorem isIdle_eq_false_iff {piece : String} : isIdle piece = false ↔ piece ≠ "" ∧ piece ≠ "." := by
  simp [isIdle]

theorem isName_of_mem_entries {entry : String} (h : entry ∈ p.entries) (hc : entry ≠ "..") :
    IsName entry := by
  obtain ⟨hm, hi⟩ := List.mem_filter.mp h
  obtain ⟨he, hd⟩ := isIdle_eq_false_iff.mp (by simpa using hi)
  exact ⟨he, hd, hc, no_slash_of_mem_pieces hm⟩

/-- An idle piece leads a walk nowhere. -/
theorem Normal.walk_filter (n : Normal) (pieces : List String) :
    n.walk (pieces.filter (!isIdle ·)) = n.walk pieces := by
  induction pieces generalizing n with
  | nil => rfl
  | cons piece pieces ih =>
    rw [List.filter_cons]
    cases hi : isIdle piece with
    | true =>
      have hs : n.step piece = n := if_pos (isIdle_iff.mp hi)
      rw [walk_cons, hs]
      exact ih n
    | false => exact ih (n.step piece)

theorem normalize_eq_walk_entries (p : Path) :
    p.normalize = (Normal.start p.isAbsolute).walk p.entries :=
  (Normal.walk_filter _ _).symm

/-- A place is reached by climbs and names. -/
theorem Normal.Named.eq_up_or_isName (h : n.Named) {piece : String} (hp : piece ∈ n.route) :
    piece = ".." ∨ IsName piece := by
  obtain ⟨origin, names⟩ := n
  cases origin with
  | root => exact .inr (h piece hp)
  | here climbs =>
    rcases List.mem_append.mp hp with hp | hp
    · exact .inl (List.eq_of_mem_replicate hp)
    · exact .inr (h piece hp)

theorem Normal.Named.isIdle_eq_false (h : n.Named) {piece : String} (hp : piece ∈ n.route) :
    isIdle piece = false := by
  rw [isIdle_eq_false_iff]
  rcases h.eq_up_or_isName hp with rfl | hn
  · decide
  · exact ⟨hn.ne_empty, hn.ne_dot⟩

theorem Normal.Named.filter_route (h : n.Named) : n.route.filter (!isIdle ·) = n.route := by
  rw [List.filter_eq_self]
  intro piece hp
  simp [h.isIdle_eq_false hp]

theorem Normal.Named.entries_toPath (h : n.Named) : n.toPath.entries = n.route := by
  obtain ⟨lead, hl, hp⟩ := h.pieces_toPath
  have hn : lead.filter (!isIdle ·) = [] := by
    rw [List.filter_eq_nil_iff]
    intro piece hm
    simp [isIdle_iff.mpr (hl piece hm)]
  rw [entries, hp, List.filter_append, hn, h.filter_route, List.nil_append]

theorem Normal.Named.isAbsolute_toPath (h : n.Named) : n.toPath.isAbsolute = n.isAbsolute := by
  rw [← isAbsolute_normalize, normalize_toPath h]

theorem Normal.Named.clean_toPath (h : n.Named) : n.toPath.clean = n.toPath := by
  rw [clean, normalize_toPath h]

theorem entries_clean (p : Path) : p.clean.entries = p.normalize.route :=
  (named_normalize p).entries_toPath

theorem normalize_eq_of_entries_eq (ha : p.isAbsolute = q.isAbsolute) (he : p.entries = q.entries) :
    p.normalize = q.normalize := by
  rw [normalize_eq_walk_entries, normalize_eq_walk_entries, ha, he]

/-- Two normal spellings with the same start and the same entries are one. -/
theorem eq_of_entries_eq (hp : p.clean = p) (hq : q.clean = q) (ha : p.isAbsolute = q.isAbsolute)
    (he : p.entries = q.entries) : p = q := by
  rw [← hp, ← hq, clean, normalize_eq_of_entries_eq ha he, clean]

end ControlGroups.Path
