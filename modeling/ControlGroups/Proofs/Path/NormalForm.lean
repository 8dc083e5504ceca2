import ControlGroups.Path.Normal
import ControlGroups.Proofs.Text.Fields

/-! The shape of normal forms. Only names are kept, so the written form of a normal form leads back
to it, and names further down can be told from climbs. -/
namespace ControlGroups.Path

/-- A piece that is kept as a name, and is neither passed over nor a climb. -/
structure IsName (piece : String) : Prop where
  ne_empty : piece ≠ ""
  ne_dot : piece ≠ "."
  ne_climb : piece ≠ ".."
  no_slash : '/' ∉ piece.toList

theorem no_slash_of_mem_pieces {p : Path} {piece : String} (h : piece ∈ p.pieces) :
    '/' ∉ piece.toList :=
  Text.sep_not_mem_of_mem_fields h

namespace Normal

/-- A normal form that holds nothing but names. -/
def Named (n : Normal) : Prop := ∀ name ∈ n.names, IsName name

/-- The place that some names lead to from another place. -/
def below (n : Normal) (names : List String) : Normal := { n with names := n.names ++ names }

@[simp] theorem below_nil (n : Normal) : n.below [] = n := by simp [below]

@[simp] theorem below_below (n : Normal) (names more : List String) :
    (n.below names).below more = n.below (names ++ more) := by
  simp [below, List.append_assoc]

theorem named_start (absolute : Bool) : (start absolute).Named := by
  intro name h
  simp [start] at h

theorem Named.below {n : Normal} {names : List String} (h : n.Named)
    (hn : ∀ name ∈ names, IsName name) : (n.below names).Named := by
  intro name hm
  rcases List.mem_append.mp hm with hm | hm
  · exact h name hm
  · exact hn name hm

theorem Named.up {n : Normal} (h : n.Named) : n.up.Named := by
  intro name hm
  rw [Normal.up] at hm
  split at hm
  · exact h name hm
  · exact h name (List.dropLast_subset _ hm)

theorem Named.step {n : Normal} {piece : String} (h : n.Named) (hp : '/' ∉ piece.toList) :
    (n.step piece).Named := by
  rw [Normal.step]
  split
  · exact h
  · rename_i hs
    split
    · exact h.up
    · rename_i hc
      rw [not_or] at hs
      have hn : ∀ name ∈ [piece], IsName name := by
        intro name hm
        rw [List.mem_singleton.mp hm]
        exact ⟨hs.1, hs.2, hc, hp⟩
      exact h.below hn

theorem Named.walk {n : Normal} {pieces : List String} (h : n.Named)
    (hp : ∀ piece ∈ pieces, '/' ∉ piece.toList) : (n.walk pieces).Named := by
  induction pieces generalizing n with
  | nil => exact h
  | cons piece pieces ih =>
    rw [walk_cons]
    exact ih (h.step (hp piece (by simp))) (fun other hm => hp other (by simp [hm]))

theorem step_of_isName (n : Normal) {name : String} (h : IsName name) :
    n.step name = n.below [name] := by
  simp [step, below, h.ne_empty, h.ne_dot, h.ne_climb]

theorem walk_names (n : Normal) {names : List String} (h : ∀ name ∈ names, IsName name) :
    n.walk names = n.below names := by
  induction names generalizing n with
  | nil => simp
  | cons name names ih =>
    rw [walk_cons, step_of_isName n (h name (by simp)), ih _ (fun m hm => h m (by simp [hm]))]
    simp

/-- Climbing from a place without names leads further away from where a path starts. -/
theorem walk_climbs (k climbs : Nat) :
    (⟨.here k, []⟩ : Normal).walk (List.replicate climbs "..") = ⟨.here (k + climbs), []⟩ := by
  induction climbs generalizing k with
  | zero => simp
  | succ climbs ih =>
    have hs : (⟨.here k, []⟩ : Normal).step ".." = ⟨.here (k + 1), []⟩ := by
      simp [step, up, Origin.climb]
    rw [List.replicate_succ, walk_cons, hs, ih]
    congr 2
    omega

theorem walk_climbs_names {names : List String} (h : ∀ name ∈ names, IsName name)
    (climbs : Nat) : (start false).walk (List.replicate climbs ".." ++ names) =
      ⟨.here climbs, names⟩ := by
  have hc := walk_climbs 0 climbs
  rw [Nat.zero_add] at hc
  rw [walk_append, show start false = ⟨.here 0, []⟩ from rfl, hc, walk_names _ h]
  simp [below]

/-- A relative normal form is the place itself, or it is written as its climbs and its names. -/
theorem components_here (climbs : Nat) (names : List String) :
    climbs = 0 ∧ names = [] ∨
      List.replicate climbs ".." ++ names ≠ [] ∧
        (⟨.here climbs, names⟩ : Normal).components = List.replicate climbs ".." ++ names := by
  cases climbs with
  | zero =>
    cases names with
    | nil => exact .inl ⟨rfl, rfl⟩
    | cons name names => exact .inr (by simp [components])
  | succ climbs => exact .inr (by simp [components, List.replicate_succ])

theorem components_here_of_ne {climbs : Nat} {names : List String} (h : climbs ≠ 0 ∨ names ≠ []) :
    (⟨.here climbs, names⟩ : Normal).components = List.replicate climbs ".." ++ names := by
  rcases components_here climbs names with ⟨rfl, rfl⟩ | ⟨-, hc⟩
  · simp at h
  · exact hc

theorem Named.mem_components {n : Normal} (h : n.Named) {piece : String}
    (hp : piece ∈ n.components) : piece = "." ∨ piece = ".." ∨ IsName piece := by
  obtain ⟨origin, names⟩ := n
  cases origin with
  | root => exact .inr (.inr (h piece hp))
  | here climbs =>
    rcases components_here climbs names with ⟨rfl, rfl⟩ | ⟨-, hc⟩
    · exact .inl (List.mem_singleton.mp hp)
    · rw [hc] at hp
      rcases List.mem_append.mp hp with hp | hp
      · exact .inr (.inl (List.eq_of_mem_replicate hp))
      · exact .inr (.inr (h piece hp))

theorem Named.no_slash_of_mem_components {n : Normal} (h : n.Named) {piece : String}
    (hp : piece ∈ n.components) : '/' ∉ piece.toList := by
  rcases h.mem_components hp with rfl | rfl | hn
  · decide
  · decide
  · exact hn.no_slash

theorem Named.ne_empty_of_mem_components {n : Normal} (h : n.Named) {piece : String}
    (hp : piece ∈ n.components) : piece ≠ "" := by
  rcases h.mem_components hp with rfl | rfl | hn
  · decide
  · decide
  · exact hn.ne_empty

theorem components_ne_nil (climbs : Nat) (names : List String) :
    (⟨.here climbs, names⟩ : Normal).components ≠ [] := by
  rcases components_here climbs names with ⟨rfl, rfl⟩ | ⟨hn, hc⟩
  · simp [components]
  · rwa [hc]

theorem walk_components {n : Normal} (h : n.Named) : (start n.isAbsolute).walk n.components = n := by
  obtain ⟨origin, names⟩ := n
  cases origin with
  | root => exact walk_names _ h
  | here climbs =>
    rcases components_here climbs names with ⟨rfl, rfl⟩ | ⟨-, hc⟩
    · rfl
    · rw [hc]
      exact walk_climbs_names h climbs

end Normal

theorem named_normalize (p : Path) : p.normalize.Named :=
  (Normal.named_start _).walk fun _ => no_slash_of_mem_pieces

theorem joinFields_isAbsolute {first : String} (rest : List String) (hne : first ≠ "")
    (hs : '/' ∉ first.toList) : (⟨Text.joinFields '/' (first :: rest)⟩ : Path).isAbsolute = false := by
  cases hl : first.toList with
  | nil => exact absurd (String.toList_eq_nil_iff.mp hl) hne
  | cons c cs =>
    have hc : '/' ≠ c := fun hc => hs (hl ▸ hc ▸ List.mem_cons_self)
    cases rest <;> simp [isAbsolute, Text.joinFields_cons_cons, hl, Ne.symm hc]

/-- The written form of a normal form leads back to it. -/
theorem normalize_toPath {n : Normal} (h : n.Named) : n.toPath.normalize = n := by
  have hs : ∀ piece ∈ n.components, '/' ∉ piece.toList := fun _ => h.no_slash_of_mem_components
  have he : ∀ piece ∈ n.components, piece ≠ "" := fun _ => h.ne_empty_of_mem_components
  obtain ⟨origin, names⟩ := n
  cases origin with
  | root =>
    cases names with
    | nil => rfl
    | cons name names =>
      have ht : (Normal.toPath ⟨.root, name :: names⟩).text =
          String.singleton '/' ++ Text.joinFields '/' (name :: names) := rfl
      have ha : (Normal.toPath ⟨.root, name :: names⟩).isAbsolute = true := by
        rw [isAbsolute, ht]
        simp
      have hf := Text.fields_joinFields (List.cons_ne_nil name names) hs
      rw [normalize, ha, pieces, ht, Text.fields_singleton_append, hf]
      exact Normal.walk_components h
  | here climbs =>
    cases hc : (⟨.here climbs, names⟩ : Normal).components with
    | nil => exact absurd hc (Normal.components_ne_nil climbs names)
    | cons first rest =>
      rw [hc] at hs he
      have ht : Normal.toPath ⟨.here climbs, names⟩ = ⟨Text.joinFields '/' (first :: rest)⟩ := by
        rw [Normal.toPath, hc]
        simp [Normal.isAbsolute]
      have ha := joinFields_isAbsolute rest (he first (by simp)) (hs first (by simp))
      rw [ht, normalize, ha, pieces, Text.fields_joinFields (List.cons_ne_nil first rest) hs, ← hc]
      exact Normal.walk_components h

@[simp] theorem normalize_clean (p : Path) : p.clean.normalize = p.normalize :=
  normalize_toPath (named_normalize p)

@[simp] theorem clean_clean (p : Path) : p.clean.clean = p.clean := by
  rw [clean, normalize_clean, clean]

end ControlGroups.Path
