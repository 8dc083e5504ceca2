import ControlGroups.Proofs.Path.NormalForm

/-! The pieces that a normal form is written with: its climbs and its names, behind a slash where it
starts at the root. -/
namespace ControlGroups.Path

namespace Normal
variable {n : Normal}

/-- The pieces that lead to a place from where it is seen: its climbs, then its names. -/
def route (n : Normal) : List String :=
  match n.origin with
  | .root => n.names
  | .here climbs => List.replicate climbs ".." ++ n.names

theorem route_below (n : Normal) (names : List String) :
    (n.below names).route = n.route ++ names := by
  obtain ⟨origin, _⟩ := n
  cases origin with
  | root => rfl
  | here climbs => exact (List.append_assoc _ _ _).symm

/-- A place with a name is one name below the place above it. -/
theorem up_below {last : String} (h : n.names.getLast? = some last) : n = n.up.below [last] := by
  obtain ⟨origin, names⟩ := n
  obtain ⟨init, rfl⟩ := List.getLast?_eq_some_iff.mp h
  simp [up, below]

/-- The pieces of a normal spelling that leads somewhere: a slash in front of the route adds an
empty one. -/
def spelled (n : Normal) : List String := (if n.isAbsolute then [""] else []) ++ n.route

theorem toPath_of_route_eq_nil (h : n.route = []) :
    n.toPath = ⟨if n.isAbsolute then "/" else "."⟩ := by
  obtain ⟨origin, names⟩ := n
  cases origin with
  | root =>
    obtain rfl : names = [] := h
    rfl
  | here climbs =>
    rcases components_here climbs names with ⟨rfl, rfl⟩ | ⟨hr, -⟩
    · rfl
    · exact absurd h hr

theorem toPath_of_route_ne_nil (h : n.route ≠ []) : n.toPath = ⟨Text.joinFields '/' n.spelled⟩ := by
  obtain ⟨origin, names⟩ := n
  cases origin with
  | root =>
    obtain ⟨first, rest, rfl⟩ := List.exists_cons_of_ne_nil (show names ≠ [] from h)
    have hs : spelled ⟨.root, first :: rest⟩ = "" :: first :: rest := rfl
    rw [hs, Text.joinFields_cons_cons, String.empty_append]
    rfl
  | here climbs =>
    rcases components_here climbs names with ⟨rfl, rfl⟩ | ⟨-, hc⟩
    · exact absurd rfl h
    · rw [toPath, hc]
      simp [isAbsolute, spelled, route]

theorem Named.no_slash_of_mem_route (h : n.Named) {piece : String} (hp : piece ∈ n.route) :
    '/' ∉ piece.toList := by
  obtain ⟨origin, names⟩ := n
  cases origin with
  | root => exact (h piece hp).no_slash
  | here climbs =>
    rcases List.mem_append.mp hp with hp | hp
    · rw [List.eq_of_mem_replicate hp]
      decide
    · exact (h piece hp).no_slash

end Normal

/-- Pieces that lead nowhere. -/
def Idle (pieces : List String) : Prop := ∀ piece ∈ pieces, piece = "" ∨ piece = "."

/-- A normal spelling is a route, apart from pieces in front of it that lead nowhere. -/
theorem Normal.Named.pieces_toPath {n : Normal} (h : n.Named) :
    ∃ lead, Idle lead ∧ n.toPath.pieces = lead ++ n.route := by
  by_cases hr : n.route = []
  · rw [hr, toPath_of_route_eq_nil hr]
    cases n.isAbsolute with
    | true => exact ⟨["", ""], by simp [Idle], rfl⟩
    | false => exact ⟨["."], by simp [Idle], rfl⟩
  · refine ⟨if n.isAbsolute then [""] else [], ?_, ?_⟩
    · cases n.isAbsolute <;> simp [Idle]
    · have hs : ∀ piece ∈ n.spelled, '/' ∉ piece.toList := by
        intro piece hp
        rcases List.mem_append.mp hp with hp | hp
        · cases hn : n.isAbsolute <;> simp_all
        · exact h.no_slash_of_mem_route hp
      rw [toPath_of_route_ne_nil hr, pieces, Text.fields_joinFields (by simp [spelled, hr]) hs,
        spelled]

end ControlGroups.Path
