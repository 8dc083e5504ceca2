import ControlGroups.Proofs.Path.Rebuilding

/-! What a path leads to, read off its pieces one after the other, and the text that spells it. A
path built again from its components has that text, so two paths have one normal spelling exactly
where they lead to the same. -/
namespace ControlGroups.Path

/-- What pieces lead to: so many climbs out of the place where a relative path starts, and the names
below that. A climb leaves the last name. Without a name it stays at the root, or it counts. -/
inductive Reading : Bool → List String → Nat → List String → Prop
  | start (absolute : Bool) : Reading absolute [] 0 []
  | idle {absolute : Bool} {pieces names : List String} {climbs : Nat} {piece : String}
      (h : Reading absolute pieces climbs names) (hp : piece = "" ∨ piece = ".") :
      Reading absolute (pieces ++ [piece]) climbs names
  | name {absolute : Bool} {pieces names : List String} {climbs : Nat} {piece : String}
      (h : Reading absolute pieces climbs names) (hp : piece ≠ "" ∧ piece ≠ "." ∧ piece ≠ "..") :
      Reading absolute (pieces ++ [piece]) climbs (names ++ [piece])
  | leave {absolute : Bool} {pieces names : List String} {climbs : Nat} {last : String}
      (h : Reading absolute pieces climbs (names ++ [last])) :
      Reading absolute (pieces ++ [".."]) climbs names
  | stay {pieces : List String} {climbs : Nat} (h : Reading true pieces climbs []) :
      Reading true (pieces ++ [".."]) climbs []
  | climb {pieces : List String} {climbs : Nat} (h : Reading false pieces climbs []) :
      Reading false (pieces ++ [".."]) (climbs + 1) []

def LeadsTo (p : Path) (climbs : Nat) (names : List String) : Prop :=
  Reading p.isAbsolute p.pieces climbs names

/-- The text for climbs and names, with a slash in front of it from the root. No text is empty. -/
def spell (absolute : Bool) (climbs : Nat) (names : List String) : Path :=
  let text := (if absolute then "/" else "") ++
    Text.joinFields '/' (List.replicate climbs ".." ++ names)
  if text = "" then ⟨"."⟩ else ⟨text⟩

namespace Normal

/-- The place of a reading. There are no climbs from the root. -/
def ofReading (absolute : Bool) (climbs : Nat) (names : List String) : Normal :=
  ⟨if absolute then .root else .here climbs, names⟩

end Normal

variable {p q : Path} {absolute : Bool} {climbs : Nat} {pieces names : List String}

theorem Reading.climbs_eq_zero (h : Reading true pieces climbs names) : climbs = 0 := by
  generalize ha : true = absolute at h
  induction h with
  | start => rfl
  | idle _ _ ih => exact ih ha
  | name _ _ ih => exact ih ha
  | leave _ ih => exact ih ha
  | stay _ ih => exact ih rfl
  | climb => cases ha

/-- A walk reaches what its pieces lead to. -/
theorem Reading.walk_eq (h : Reading absolute pieces climbs names) :
    (Normal.start absolute).walk pieces = .ofReading absolute climbs names := by
  induction h with
  | start absolute => cases absolute <;> rfl
  | idle _ hp ih =>
    rw [Normal.walk_append, ih, Normal.walk_cons, Normal.walk_nil, Normal.step, if_pos hp]
  | name _ hp ih =>
    obtain ⟨he, hd, hc⟩ := hp
    simp [ih, Normal.step, Normal.ofReading, he, hd, hc]
  | leave _ ih => simp [ih, Normal.step, Normal.up, Normal.ofReading]
  | stay _ ih => simp [ih, Normal.step, Normal.up, Normal.ofReading, Origin.climb]
  | climb _ ih => simp [ih, Normal.step, Normal.up, Normal.ofReading, Origin.climb]

/-- Every path can be read. -/
theorem exists_reading (absolute : Bool) (pieces : List String) :
    ∃ climbs names, Reading absolute pieces climbs names := by
  induction pieces using List.reverseRecOn with
  | nil => exact ⟨0, [], .start absolute⟩
  | append_singleton pieces piece ih =>
    obtain ⟨climbs, names, h⟩ := ih
    by_cases hi : piece = "" ∨ piece = "."
    · exact ⟨climbs, names, .idle h hi⟩
    · by_cases hc : piece = ".."
      · subst hc
        rcases List.eq_nil_or_concat names with rfl | ⟨init, last, rfl⟩
        · cases absolute with
          | true => exact ⟨climbs, [], .stay h⟩
          | false => exact ⟨climbs + 1, [], .climb h⟩
        · rw [List.concat_eq_append] at h
          exact ⟨climbs, init, .leave h⟩
      · rw [not_or] at hi
        exact ⟨climbs, names ++ [piece], .name h ⟨hi.1, hi.2, hc⟩⟩

/-- Readings that reach one place are of the same climbs and names. -/
theorem Reading.eq_of_ofReading_eq {pieces' names' : List String} {climbs' : Nat}
    (h : Reading absolute pieces climbs names) (h' : Reading absolute pieces' climbs' names')
    (he : Normal.ofReading absolute climbs' names' = .ofReading absolute climbs names) :
    climbs' = climbs ∧ names' = names := by
  rw [Normal.ofReading, Normal.ofReading, Normal.mk.injEq] at he
  refine ⟨?_, he.2⟩
  cases absolute with
  | true => rw [h.climbs_eq_zero, h'.climbs_eq_zero]
  | false => simpa using he.1

theorem Reading.unique {names' : List String} {climbs' : Nat}
    (h : Reading absolute pieces climbs names) (h' : Reading absolute pieces climbs' names') :
    climbs' = climbs ∧ names' = names :=
  h.eq_of_ofReading_eq h' (h'.walk_eq.symm.trans h.walk_eq)

theorem LeadsTo.normalize_eq (h : p.LeadsTo climbs names) :
    p.normalize = .ofReading p.isAbsolute climbs names :=
  Reading.walk_eq h

/-- The normal spelling of a path spells what the path leads to. -/
theorem LeadsTo.clean_eq (h : p.LeadsTo climbs names) :
    p.clean = spell p.isAbsolute climbs names := by
  have hs : p.normalize.spelling = ⟨(if p.isAbsolute then "/" else "") ++
      Text.joinFields '/' (List.replicate climbs ".." ++ names)⟩ := by
    rw [h.normalize_eq]
    rw [LeadsTo] at h
    cases ha : p.isAbsolute with
    | true =>
      rw [ha] at h
      rw [h.climbs_eq_zero]
      rfl
    | false => rfl
  rw [clean, (named_normalize p).toPath_eq, hs, spell]

theorem LeadsTo.clean_eq_clean_iff (h : p.LeadsTo climbs names) :
    p.clean = q.clean ↔ p.isAbsolute = q.isAbsolute ∧ q.LeadsTo climbs names := by
  rw [Path.clean_eq_clean_iff]
  constructor
  · intro hn
    have ha : p.isAbsolute = q.isAbsolute := by
      rw [← isAbsolute_normalize p, hn, isAbsolute_normalize]
    obtain ⟨c, ns, hq⟩ := exists_reading q.isAbsolute q.pieces
    have hr : Reading q.isAbsolute p.pieces climbs names := ha ▸ h
    have he := hq.walk_eq.symm.trans (hn.symm.trans (ha ▸ h.normalize_eq))
    obtain ⟨rfl, rfl⟩ := hr.eq_of_ofReading_eq hq he
    exact ⟨ha, hq⟩
  · rintro ⟨ha, hq⟩
    rw [h.normalize_eq, hq.normalize_eq, ha]

/-- A path built again from its components spells what its pieces lead to, and so does its normal
spelling. That is its own normal spelling, and it is shared by the paths that start at the same
place and lead to the same. -/
theorem clean_spells_reading (p : Path) : ∃ climbs names,
    (∀ c ns, p.LeadsTo c ns ↔ c = climbs ∧ ns = names) ∧
    p.clean = spell p.isAbsolute climbs names ∧ p.rebuild = p.clean ∧
    p.clean.clean = p.clean ∧
    ∀ q : Path, p.clean = q.clean ↔ p.isAbsolute = q.isAbsolute ∧ q.LeadsTo climbs names := by
  obtain ⟨climbs, names, h⟩ := exists_reading p.isAbsolute p.pieces
  have hp : p.LeadsTo climbs names := h
  refine ⟨climbs, names, ?_, hp.clean_eq, rebuild_eq_clean p, clean_clean p,
    fun q => hp.clean_eq_clean_iff⟩
  intro c ns
  constructor
  · intro hc
    exact h.unique hc
  · rintro ⟨rfl, rfl⟩
    exact h

example : (Path.mk "a/../../b").rebuild = ⟨"../b"⟩ := by decide

end ControlGroups.Path
