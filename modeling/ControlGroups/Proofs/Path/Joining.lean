import ControlGroups.Proofs.Path.NormalForm

/-! Joined paths. A relative path behind another is walked from where the other leads, so joining
depends on where the first path leads and not on how it is spelled. -/
namespace ControlGroups.Path

variable {p p' q : Path}

theorem isAbsolute_append_slash (s t : String) :
    (Path.mk (s ++ "/" ++ t)).isAbsolute = (Path.mk (s ++ "/")).isAbsolute := by
  cases hs : s.toList <;> simp [isAbsolute, hs]

theorem isAbsolute_slash {s : String} (h : s ≠ "") :
    (Path.mk (s ++ "/")).isAbsolute = (Path.mk s).isAbsolute := by
  cases hs : s.toList with
  | nil => exact absurd (String.toList_eq_nil_iff.mp hs) h
  | cons c cs => simp [isAbsolute, hs]

theorem pieces_slash (s : String) :
    (Path.mk (s ++ "/")).pieces = Text.fields '/' s ++ [""] := by
  have h := Text.fields_append_singleton_append '/' s ""
  rwa [String.append_empty] at h

/-- A slash at the end of a path leads nowhere. -/
theorem walk_pieces_slash (n : Normal) (s : String) :
    n.walk (Path.mk (s ++ "/")).pieces = n.walk (Text.fields '/' s) := by
  have he (n : Normal) : n.step "" = n := rfl
  rw [pieces_slash, Normal.walk_append, Normal.walk_cons, Normal.walk_nil, he]

theorem normalize_slash {s : String} (h : s ≠ "") :
    (Path.mk (s ++ "/")).normalize = (Path.mk s).normalize := by
  rw [normalize, isAbsolute_slash h, walk_pieces_slash]
  rfl

/-- What stands behind a slash is walked from where the path up to the slash leads. -/
theorem normalize_append_slash (s t : String) : (Path.mk (s ++ "/" ++ t)).normalize =
    (Path.mk (s ++ "/")).normalize.walk (Text.fields '/' t) := by
  have hp : (Path.mk (s ++ "/" ++ t)).pieces = Text.fields '/' s ++ Text.fields '/' t :=
    Text.fields_append_singleton_append '/' s t
  rw [normalize, isAbsolute_append_slash, hp, Normal.walk_append, normalize, walk_pieces_slash]

/-- A path is empty, or it ends with a slash, or a slash is due behind it. -/
theorem wantsSlash_cases (p : Path) :
    p = ⟨""⟩ ∨ (∃ s, p = ⟨s ++ "/"⟩) ∨ p.wantsSlash = true := by
  obtain ⟨text⟩ := p
  rcases List.eq_nil_or_concat text.toList with h | ⟨init, last, h⟩
  · exact .inl (by rw [String.toList_eq_nil_iff.mp h])
  · by_cases hl : last = '/'
    · refine .inr (.inl ⟨String.ofList init, ?_⟩)
      rw [mk.injEq, ← String.toList_inj, h, hl]
      simp
    · refine .inr (.inr ?_)
      simp [wantsSlash, h, hl]

theorem wantsSlash_slash (s : String) : (Path.mk (s ++ "/")).wantsSlash = false := by
  simp [wantsSlash]

/-- A relative path is walked from where the path in front of it leads. -/
theorem normalize_join (p : Path) (h : q.isAbsolute = false) :
    (p.join q).normalize = p.normalize.walk q.pieces := by
  rcases wantsSlash_cases p with rfl | ⟨s, rfl⟩ | hw
  · rw [empty_join, normalize, h]
    rfl
  · rw [join, h, wantsSlash_slash]
    exact normalize_append_slash s q.text
  · have hne : p.text ≠ "" := by
      intro he
      simp [wantsSlash, he] at hw
    have hj : p.join q = ⟨p.text ++ "/" ++ q.text⟩ := by simp [join, h, hw]
    rw [hj, normalize_append_slash, normalize_slash hne]
    rfl

theorem clean_eq_clean_iff : p.clean = p'.clean ↔ p.normalize = p'.normalize := by
  constructor
  · intro h
    rw [← normalize_clean p, h, normalize_clean]
  · intro h
    rw [clean, h, clean]

/-- Two spellings of one place are two spellings of one place in front of any path. -/
theorem clean_join_congr (h : p.clean = p'.clean) (q : Path) :
    (p.join q).clean = (p'.join q).clean := by
  cases hq : q.isAbsolute with
  | true => rw [join_of_isAbsolute p hq, join_of_isAbsolute p' hq]
  | false =>
    rw [clean_eq_clean_iff] at h ⊢
    rw [normalize_join p hq, normalize_join p' hq, h]

end ControlGroups.Path
