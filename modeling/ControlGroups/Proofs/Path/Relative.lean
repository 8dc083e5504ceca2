import ControlGroups.Proofs.Path.NormalForm

/-! How one normal form is seen from another. Comparing components finds the names that lead down
from a place, and it also takes further climbs for a way down from a place that is only climbs. -/
namespace ControlGroups.Path.Normal

/-- A place further up than another that consists of climbs alone. -/
def Escapes (n root : Normal) : Prop :=
  ∃ j k, 0 < j ∧ j < k ∧ root = ⟨.here j, []⟩ ∧ n.origin = .here k

theorem Named.climb_not_mem {n : Normal} (h : n.Named) : ".." ∉ n.names :=
  fun hm => (h _ hm).ne_climb rfl

theorem Named.dot_not_mem {climbs : Nat} {names : List String}
    (h : (⟨.here climbs, names⟩ : Normal).Named) : "." ∉ List.replicate climbs ".." ++ names := by
  intro hm
  rcases List.mem_append.mp hm with hm | hm
  · exact absurd (List.eq_of_mem_replicate hm) (by decide)
  · exact (h _ hm).ne_dot rfl

theorem climbs_append_eq_iff {j k : Nat} {names rest : List String} (h : ".." ∉ names) :
    List.replicate k ".." ++ names = List.replicate j ".." ++ rest ↔
      j ≤ k ∧ rest = List.replicate (k - j) ".." ++ names := by
  constructor
  · intro he
    induction j generalizing k with
    | zero => exact ⟨Nat.zero_le k, by simpa using he.symm⟩
    | succ j ih =>
      cases k with
      | zero =>
        rw [List.replicate_zero, List.nil_append] at he
        exact absurd (by simp [he, List.replicate_succ]) h
      | succ k =>
        rw [List.replicate_succ, List.replicate_succ, List.cons_append, List.cons_append] at he
        obtain ⟨hk, hr⟩ := ih (List.cons.inj he).2
        exact ⟨Nat.succ_le_succ hk, by rwa [Nat.succ_sub_succ]⟩
  · rintro ⟨hk, rfl⟩
    rw [← List.append_assoc, List.replicate_append_replicate, Nat.add_sub_cancel' hk]

theorem relativeTo?_eq_some_components {n root : Normal} {rest : List String} :
    n.relativeTo? root = some rest ↔
      n.isAbsolute = root.isAbsolute ∧ n.components = root.components ++ rest := by
  rw [relativeTo?]
  split
  · rename_i ha
    rw [after?_eq_some_iff]
    simp [ha]
  · rename_i ha
    simp [ha]

/-- Seen from a relative place other than the start: the climbs of the two places agree, or the
first climbs further than the second, which then has no names. -/
theorem components_here_eq_append_iff {j k : Nat} {names root rest : List String}
    (hn : (⟨.here k, names⟩ : Normal).Named) (hr : (⟨.here j, root⟩ : Normal).Named)
    (hd : j ≠ 0 ∨ root ≠ []) :
    (⟨.here k, names⟩ : Normal).components = (⟨.here j, root⟩ : Normal).components ++ rest ↔
      k = j ∧ names = root ++ rest ∨
        root = [] ∧ j < k ∧ rest = List.replicate (k - j) ".." ++ names := by
  have hj := components_here_of_ne hd
  constructor
  · intro he
    rcases components_here k names with ⟨rfl, rfl⟩ | ⟨-, hk⟩
    · -- the start is written as a piece that is neither a climb nor a name
      cases hl : (⟨.here j, root⟩ : Normal).components with
      | nil => exact absurd hl (components_ne_nil j root)
      | cons first others =>
        rw [hl] at he
        have hf : "." = first := (List.cons.inj he).1
        exact absurd (by rw [← hj, hl, hf]; exact List.mem_cons_self) hr.dot_not_mem
    · rw [hk, hj, List.append_assoc, climbs_append_eq_iff hn.climb_not_mem] at he
      obtain ⟨hle, hs⟩ := he
      rcases Nat.eq_or_lt_of_le hle with rfl | hlt
      · rw [Nat.sub_self, List.replicate_zero, List.nil_append] at hs
        exact .inl ⟨rfl, hs.symm⟩
      · obtain ⟨d, hkj⟩ := Nat.exists_eq_succ_of_ne_zero (Nat.sub_ne_zero_of_lt hlt)
        cases root with
        | nil => exact .inr ⟨rfl, hlt, hs⟩
        | cons first root =>
          rw [hkj, List.replicate_succ, List.cons_append, List.cons_append] at hs
          exact absurd (List.cons.inj hs).1 (hr first (by simp)).ne_climb
  · rintro (⟨rfl, rfl⟩ | ⟨rfl, hlt, rfl⟩)
    · have hk : k ≠ 0 ∨ root ++ rest ≠ [] := hd.imp_right fun h => by simp [h]
      rw [hj, components_here_of_ne hk, List.append_assoc]
    · have hk : k ≠ 0 ∨ names ≠ [] := .inl (by omega)
      rw [hj, components_here_of_ne hk, List.append_assoc, List.nil_append,
        climbs_append_eq_iff hn.climb_not_mem]
      exact ⟨Nat.le_of_lt hlt, rfl⟩

/-- What is seen of one place from another: names on the way down, nothing but itself from the
start, and climbs where the place escapes. -/
theorem relativeTo?_eq_some_iff {n root : Normal} {rest : List String} (hn : n.Named)
    (hr : root.Named) :
    n.relativeTo? root = some rest ↔
      n = root.below rest ∧ (root = ⟨.here 0, []⟩ → rest = []) ∨
        ∃ j k, 0 < j ∧ j < k ∧ root = ⟨.here j, []⟩ ∧ n.origin = .here k ∧
          rest = List.replicate (k - j) ".." ++ n.names := by
  rw [relativeTo?_eq_some_components]
  obtain ⟨origin, names⟩ := n
  obtain ⟨rootOrigin, rootNames⟩ := root
  cases origin with
  | root =>
    cases rootOrigin with
    | root => simp [isAbsolute, components, below]
    | here j => simp [isAbsolute, below]
  | here k =>
    cases rootOrigin with
    | root => simp [isAbsolute, below]
    | here j =>
      by_cases hd : j ≠ 0 ∨ rootNames ≠ []
      · rw [components_here_eq_append_iff hn hr hd]
        constructor
        · rintro ⟨-, ⟨rfl, rfl⟩ | ⟨rfl, hlt, hrest⟩⟩
          · exact .inl ⟨rfl, fun h => by simp_all⟩
          · exact .inr ⟨j, k, by simpa [Nat.pos_iff_ne_zero] using hd, hlt, rfl, rfl, hrest⟩
        · rintro (⟨h, -⟩ | ⟨j', k', -, hlt, h, hk, hrest⟩)
          · simp only [below, mk.injEq, Origin.here.injEq] at h
            exact ⟨rfl, .inl h⟩
          · simp only [mk.injEq, Origin.here.injEq] at h hk
            obtain ⟨rfl, rfl⟩ := h
            subst hk
            exact ⟨rfl, .inr ⟨rfl, hlt, hrest⟩⟩
      · rw [not_or, Decidable.not_not, Decidable.not_not] at hd
        obtain ⟨rfl, rfl⟩ := hd
        rw [show (⟨.here 0, []⟩ : Normal).components = ["."] from rfl]
        constructor
        · rintro ⟨-, he⟩
          rcases components_here k names with ⟨rfl, rfl⟩ | ⟨-, hk⟩
          · have hrest : rest = [] := by simpa [components] using he.symm
            exact .inl ⟨by simp [below, hrest], fun _ => hrest⟩
          · exact absurd (by simp [← hk, he]) hn.dot_not_mem
        · rintro (⟨h, hrest⟩ | ⟨j', k', hpos, -, h, -⟩)
          · rw [h, hrest rfl]
            exact ⟨rfl, rfl⟩
          · simp only [mk.injEq, Origin.here.injEq] at h
            omega

end ControlGroups.Path.Normal
