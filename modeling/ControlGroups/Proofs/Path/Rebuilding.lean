import Mathlib.Data.List.DropRight
import ControlGroups.Proofs.Path.Climbing
import ControlGroups.Proofs.Path.Entries
import ControlGroups.Proofs.Path.Joining

/-! Paths built again component by component. The text built so far spells the place that a walk
has reached, so its last component tells what a climb leaves, and what is built in the end is the
normal spelling. -/
namespace ControlGroups.Path

variable {n : Normal} {entry : String} {pieces : List String}

namespace Normal

/-- The text of a place on the way. Only the place where a relative path starts has another text
than in its normal spelling, an empty one. -/
def spelling (n : Normal) : Path :=
  ⟨(if n.isAbsolute then "/" else "") ++ Text.joinFields '/' n.route⟩

theorem spelling_of_isAbsolute (h : n.isAbsolute = true) : n.spelling = ofRoot n.route := by
  rw [spelling, if_pos h]
  rfl

theorem spelling_of_not_isAbsolute (h : n.isAbsolute = false) :
    n.spelling = ⟨Text.joinFields '/' n.route⟩ := by
  rw [spelling, h, if_neg Bool.false_ne_true, String.empty_append]

theorem Named.ne_empty_of_mem_route (h : n.Named) {piece : String} (hp : piece ∈ n.route) :
    piece ≠ "" :=
  (isIdle_eq_false_iff.mp (h.isIdle_eq_false hp)).1

theorem Named.isAbsolute_spelling (h : n.Named) : n.spelling.isAbsolute = n.isAbsolute := by
  cases ha : n.isAbsolute with
  | true => rw [spelling_of_isAbsolute ha, isAbsolute_ofRoot]
  | false =>
    rw [spelling_of_not_isAbsolute ha]
    cases hr : n.route with
    | nil => rfl
    | cons first rest =>
      have hf : first ∈ n.route := hr ▸ List.mem_cons_self
      exact joinFields_isAbsolute rest (h.ne_empty_of_mem_route hf) (h.no_slash_of_mem_route hf)

/-- The pieces of a joined route, which are never none. -/
theorem Named.fields_route (h : n.Named) :
    Text.fields '/' (Text.joinFields '/' n.route) = if n.route = [] then [""] else n.route := by
  split
  · rename_i hr
    rw [hr]
    rfl
  · rename_i hr
    exact Text.fields_joinFields hr fun _ => h.no_slash_of_mem_route

theorem pieces_spelling (n : Normal) : n.spelling.pieces =
    (if n.isAbsolute then [""] else []) ++ Text.fields '/' (Text.joinFields '/' n.route) := by
  cases ha : n.isAbsolute with
  | true =>
    have hs : n.spelling.text = String.singleton '/' ++ Text.joinFields '/' n.route := by
      rw [spelling_of_isAbsolute ha]
      rfl
    rw [pieces, hs, Text.fields_singleton_append]
    rfl
  | false =>
    rw [pieces, spelling_of_not_isAbsolute ha]
    rfl

theorem Named.entries_spelling (h : n.Named) : n.spelling.entries = n.route := by
  have hi : (if n.isAbsolute then [""] else []).filter (!isIdle ·) = [] := by
    cases n.isAbsolute <;> rfl
  rw [entries, pieces_spelling, List.filter_append, hi, List.nil_append, h.fields_route]
  split
  · rename_i hr
    rw [hr]
    rfl
  · exact h.filter_route

theorem Named.lead_spelling (h : n.Named) :
    n.spelling.lead = if n.isAbsolute then some .root else none := by
  rw [lead, h.isAbsolute_spelling]
  cases ha : n.isAbsolute with
  | true => rfl
  | false =>
    have hd : n.spelling.pieces.head? ≠ some "." := by
      rw [pieces_spelling, ha, if_neg Bool.false_ne_true, List.nil_append, h.fields_route]
      intro hh
      split at hh
      · exact absurd hh (by decide)
      · have hm : "." ∈ n.route := List.mem_of_mem_head? hh
        exact absurd (h.isIdle_eq_false hm) (by decide)
    simp [hd]

theorem Named.body_spelling (h : n.Named) :
    n.spelling.body = Text.fields '/' (Text.joinFields '/' n.route) := by
  rw [body, h.lead_spelling]
  cases ha : n.isAbsolute with
  | true =>
    rw [spelling_of_isAbsolute ha]
    simp [ofRoot]
  | false =>
    rw [spelling_of_not_isAbsolute ha]
    simp

theorem Named.components_spelling (h : n.Named) : n.spelling.components =
    (if n.isAbsolute then [.root] else []) ++ n.route.map .ofEntry := by
  rw [Path.components, h.lead_spelling, h.entries_spelling]
  cases n.isAbsolute <;> rfl

theorem dropIdle_of_route (h : ∀ piece ∈ pieces, isIdle piece = false) : dropIdle pieces = pieces :=
  List.rdropWhile_eq_self_iff.mpr fun hne => by simp [h _ (List.getLast_mem hne)]

/-- Above a name stands the place that the name is seen from. -/
theorem Named.parent_below {name : String} (h : n.Named) (hn : IsName name) :
    (n.below [name]).spelling.parent = n.spelling := by
  have hb : (n.below [name]).Named := h.below fun other hm => (List.mem_singleton.mp hm) ▸ hn
  have hr : (n.below [name]).route = n.route ++ [name] := route_below n [name]
  have hbody : (n.below [name]).spelling.body = n.route ++ [name] := by
    rw [hb.body_spelling, hb.fields_route, hr]
    simp
  have hd : dropIdle (n.route ++ [name]) = n.route ++ [name] := by
    rw [← hr]
    exact dropIdle_of_route fun _ => hb.isIdle_eq_false
  have hlead : (n.below [name]).spelling.lead = if n.isAbsolute then some .root else none :=
    hb.lead_spelling
  rw [parent, hbody, hd, hlead]
  split
  · rename_i he _
    exact absurd he (by simp)
  · rename_i he _
    exact absurd he (by simp)
  · rw [List.dropLast_concat, dropIdle_of_route fun _ => h.isIdle_eq_false, spelling]
    cases n.isAbsolute <;> rfl

theorem Named.wantsSlash_spelling (h : n.Named) (hr : n.route ≠ []) :
    n.spelling.wantsSlash = true := by
  have hl : n.spelling.pieces.getLast? ≠ some "" := by
    rw [pieces_spelling, h.fields_route, if_neg hr, List.getLast?_append_of_ne_nil _ hr]
    intro hl
    exact h.ne_empty_of_mem_route (List.mem_of_getLast? hl) rfl
  rcases wantsSlash_cases n.spelling with he | ⟨s, he⟩ | hw
  · rw [he] at hl
    exact absurd rfl hl
  · rw [he, pieces_slash] at hl
    simp at hl
  · exact hw

/-- An entry written behind a place spells the place that it leads to. -/
theorem Named.join_spelling {m : Normal} (h : n.Named) (he : entry ≠ "")
    (hs : '/' ∉ entry.toList) (ha : m.isAbsolute = n.isAbsolute)
    (hr : m.route = n.route ++ [entry]) : n.spelling.join ⟨entry⟩ = m.spelling := by
  have hq : (Path.mk entry).isAbsolute = false := by
    have hf := joinFields_isAbsolute [] he hs
    rwa [Text.joinFields_singleton] at hf
  rw [join, if_neg (by simp [hq])]
  by_cases hn : n.route = []
  · have hw : n.spelling.wantsSlash = false := by
      rw [spelling, hn]
      cases n.isAbsolute <;> decide
    rw [if_neg (by simp [hw]), spelling, spelling, ha, hr, hn, List.nil_append]
    simp
  · rw [if_pos (h.wantsSlash_spelling hn), spelling, spelling, ha, hr, Text.joinFields_concat hn,
      String.append_assoc, String.append_assoc]
    rfl

/-- With one more component behind it a spelling spells the place that one more step leads to. -/
theorem Named.extend_spelling (h : n.Named) (hi : isIdle entry = false)
    (hs : '/' ∉ entry.toList) :
    n.spelling.extend (.ofEntry entry) = (n.step entry).spelling := by
  obtain ⟨he, hd⟩ := isIdle_eq_false_iff.mp hi
  by_cases hc : entry = ".."
  · subst hc
    have hstep : n.step ".." = n.up := by simp [Normal.step]
    rw [hstep, show Component.ofEntry ".." = .up from rfl, extend, h.components_spelling]
    cases hl : n.names.getLast? with
    | some last =>
      have hb := up_below hl
      have hn : IsName last := h last (List.mem_of_getLast? hl)
      have hr : n.route = n.up.route ++ [last] := by rw [← route_below, ← hb]
      have hp := h.up.parent_below hn
      rw [← hb] at hp
      have ho : Component.ofEntry last = .name last := if_neg hn.ne_climb
      rw [hr, List.map_append, ← List.append_assoc, List.map_singleton, List.getLast?_concat, ho]
      exact hp
    | none =>
      obtain ⟨origin, names⟩ := n
      obtain rfl : names = [] := List.getLast?_eq_none_iff.mp hl
      cases origin with
      | root => decide
      | here climbs =>
        have hr : (Normal.up ⟨.here climbs, []⟩).route = route ⟨.here climbs, []⟩ ++ [".."] := by
          simp [Normal.up, route, Origin.climb, List.replicate_succ']
        have hup := h.join_spelling he hs (isAbsolute_up _) hr
        cases climbs with
        | zero => exact hup
        | succ climbs =>
          have hlast : ((route ⟨.here (climbs + 1), []⟩).map Component.ofEntry).getLast? =
              some .up := by
            simp [route, List.replicate_succ', Component.ofEntry]
          rw [List.getLast?_append, hlast]
          exact hup
  · have hn : IsName entry := ⟨he, hd, hc, hs⟩
    rw [step_of_isName n hn, show Component.ofEntry entry = .name entry from if_neg hc, extend]
    · exact h.join_spelling he hs rfl (route_below n [entry])
    · intro hx
      cases hx
    · intro hx
      cases hx

theorem Named.foldl_extend (h : n.Named)
    (hp : ∀ entry ∈ pieces, isIdle entry = false ∧ '/' ∉ entry.toList) :
    (pieces.map .ofEntry).foldl extend n.spelling = (n.walk pieces).spelling := by
  induction pieces generalizing n with
  | nil => rfl
  | cons entry pieces ih =>
    obtain ⟨⟨hi, hs⟩, hrest⟩ := List.forall_mem_cons.mp hp
    rw [List.map_cons, List.foldl_cons, h.extend_spelling hi hs, ih (h.step hs) hrest]
    rfl

theorem Named.toPath_eq (h : n.Named) :
    n.toPath = if n.spelling.text = "" then ⟨"."⟩ else n.spelling := by
  have ht : n.route ≠ [] → n.spelling.text ≠ "" := by
    intro hr he
    have hw := h.wantsSlash_spelling hr
    rw [wantsSlash, he] at hw
    cases hw
  obtain ⟨origin, names⟩ := n
  cases origin with
  | root => simp [spelling, toPath, isAbsolute, route, components]
  | here climbs =>
    rcases components_here climbs names with ⟨rfl, rfl⟩ | ⟨hr, hc⟩
    · rfl
    · rw [if_neg (ht hr), toPath, hc]
      rfl

end Normal

variable {p : Path}

/-- The text built from the first components of a path spells the place that they lead to. -/
theorem foldl_components (p : Path) : p.components.foldl extend ⟨""⟩ = p.normalize.spelling := by
  have hp : ∀ entry ∈ p.entries, isIdle entry = false ∧ '/' ∉ entry.toList := by
    intro entry hm
    obtain ⟨hp, hi⟩ := List.mem_filter.mp hm
    exact ⟨by simpa using hi, no_slash_of_mem_pieces hp⟩
  have hl : p.lead.toList.foldl extend ⟨""⟩ = (Normal.start p.isAbsolute).spelling := by
    rw [lead]
    cases p.isAbsolute with
    | true =>
      rw [if_pos rfl]
      decide
    | false =>
      rw [if_neg Bool.false_ne_true]
      split <;> decide
  rw [components, List.foldl_append, hl, (Normal.named_start _).foldl_extend hp,
    normalize_eq_walk_entries]

theorem rebuild_eq_clean (p : Path) : p.rebuild = p.clean := by
  rw [rebuild, foldl_components, clean, (named_normalize p).toPath_eq]
  by_cases ht : p.normalize.spelling.text = ""
  · have hs : p.normalize.spelling = ⟨""⟩ := congrArg Path.mk ht
    rw [if_pos ht, hs, empty_join]
    rfl
  · rw [if_neg ht, if_neg ht]

end ControlGroups.Path
