import ControlGroups.Proofs.Path.NormalForm

/-! Paths that climb above the root. Their normal forms stay at the root there, so of such a path
only the pieces after its last climb above the root are left. -/
namespace ControlGroups.Path

variable {p : Path} {before after : List String}

/-- A path from the root that climbs above it: the pieces before some climb lead back to the
root. -/
structure ClimbsOut (p : Path) (before after : List String) : Prop where
  isAbsolute_eq : p.isAbsolute = true
  pieces_eq : p.pieces = before ++ ".." :: after
  names_eq : ((Normal.start true).walk before).names = []

/-- The path that leads from the root through some pieces. -/
def ofRoot (pieces : List String) : Path := ⟨"/" ++ Text.joinFields '/' pieces⟩

theorem Normal.origin_of_isAbsolute {n : Normal} (h : n.isAbsolute = true) : n.origin = .root := by
  obtain ⟨origin, names⟩ := n
  cases origin with
  | root => rfl
  | here climbs => cases h

theorem Normal.eq_start {n : Normal} (ha : n.isAbsolute = true) (hn : n.names = []) :
    n = start true := by
  have ho := origin_of_isAbsolute ha
  obtain ⟨origin, names⟩ := n
  rw [show origin = .root from ho, show names = [] from hn]
  rfl

theorem origin_normalize (h : p.isAbsolute = true) : p.normalize.origin = .root :=
  Normal.origin_of_isAbsolute ((isAbsolute_normalize p).trans h)

@[simp] theorem isAbsolute_ofRoot (pieces : List String) : (ofRoot pieces).isAbsolute = true := by
  simp [ofRoot, isAbsolute]

theorem pieces_ofRoot {first : String} {rest : List String}
    (h : ∀ piece ∈ first :: rest, '/' ∉ piece.toList) :
    (ofRoot (first :: rest)).pieces = "" :: first :: rest := by
  have ht : (ofRoot (first :: rest)).text =
      String.singleton '/' ++ Text.joinFields '/' (first :: rest) := rfl
  rw [pieces, ht, Text.fields_singleton_append,
    Text.fields_joinFields (List.cons_ne_nil first rest) h]

theorem normalize_ofRoot {pieces : List String} (h : ∀ piece ∈ pieces, '/' ∉ piece.toList) :
    (ofRoot pieces).normalize = (Normal.start true).walk pieces := by
  cases pieces with
  | nil => rfl
  | cons first rest =>
    rw [normalize, isAbsolute_ofRoot, pieces_ofRoot h]
    rfl

theorem ClimbsOut.no_slash (h : p.ClimbsOut before after) :
    ∀ piece ∈ after, '/' ∉ piece.toList := by
  intro piece hm
  apply no_slash_of_mem_pieces
  rw [h.pieces_eq]
  simp [hm]

theorem ClimbsOut.walk_eq (h : p.ClimbsOut before after) (rest : List String) :
    (Normal.start true).walk (before ++ ".." :: rest) = (Normal.start true).walk rest := by
  have hb : (Normal.start true).walk before = Normal.start true :=
    Normal.eq_start (Normal.isAbsolute_walk _ _) h.names_eq
  have hu : (Normal.start true).step ".." = Normal.start true := rfl
  rw [Normal.walk_append, hb, Normal.walk_cons, hu]

/-- Of a climb above the root and of what stands before it, nothing is left. -/
theorem ClimbsOut.normalize_eq (h : p.ClimbsOut before after) :
    p.normalize = (ofRoot after).normalize := by
  rw [normalize_ofRoot h.no_slash, normalize, h.isAbsolute_eq, h.pieces_eq, h.walk_eq]

/-- A climb above the root in what is left of a path is a later such climb of the path. -/
theorem ClimbsOut.later {earlier later : List String} (h : p.ClimbsOut before after)
    (hl : (ofRoot after).ClimbsOut earlier later) :
    later.length < after.length ∧ ∃ before, p.ClimbsOut before later := by
  cases after with
  | nil =>
    have hm : ".." ∈ (ofRoot []).pieces := by simp [hl.pieces_eq]
    exact absurd hm (by decide)
  | cons first rest =>
    have hp := hl.pieces_eq
    rw [pieces_ofRoot h.no_slash] at hp
    cases earlier with
    | nil => exact absurd (List.cons.inj hp).1 (by decide)
    | cons piece between =>
      obtain ⟨rfl, ht⟩ := List.cons.inj hp
      have hr : first :: rest = between ++ ".." :: later := ht
      have hlt : later.length < (first :: rest).length := by
        rw [hr, List.length_append, List.length_cons]
        omega
      refine ⟨hlt, before ++ ".." :: between, h.isAbsolute_eq, ?_, ?_⟩
      · rw [h.pieces_eq, hr]
        simp
      · rw [h.walk_eq]
        exact hl.names_eq

/-- What is left after the last climb of a path above the root does not climb above it. -/
theorem ClimbsOut.exists_last (h : p.ClimbsOut before after) :
    ∃ before after, p.ClimbsOut before after ∧
      ∀ earlier later, ¬ (ofRoot after).ClimbsOut earlier later := by
  induction hn : after.length using Nat.strongRecOn generalizing before after with
  | ind n ih =>
    by_cases hl : ∃ earlier later, (ofRoot after).ClimbsOut earlier later
    · obtain ⟨earlier, later, hl⟩ := hl
      obtain ⟨hlt, before, hb⟩ := h.later hl
      exact ih later.length (hn ▸ hlt) hb rfl
    · exact ⟨before, after, h, fun earlier later hc => hl ⟨earlier, later, hc⟩⟩

end ControlGroups.Path
