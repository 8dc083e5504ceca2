import ControlGroups.Text.Fields

/-! Paths as they are written. Two spellings of one place are different paths; `Path.Normal` says
which of them name the same place. -/
namespace ControlGroups

/-- A path as it is written. -/
structure Path where
  text : String
  deriving DecidableEq, Repr

namespace Path

instance : Inhabited Path := ⟨⟨""⟩⟩

/-- Whether the path starts at the root. -/
def isAbsolute (p : Path) : Bool := p.text.toList.head? == some '/'

/-- The pieces between the slashes, empty ones included. -/
def pieces (p : Path) : List String := Text.fields '/' p.text

/-- Whether a slash is due before more is written behind the path. -/
def wantsSlash (p : Path) : Bool := p.text.toList.getLast?.any (· != '/')

/-- The second path as seen from the first. An absolute one replaces it, and an empty one leaves
the slash that would stand before it. -/
def join (p q : Path) : Path :=
  if q.isAbsolute then q
  else if p.wantsSlash then ⟨p.text ++ "/" ++ q.text⟩
  else ⟨p.text ++ q.text⟩

theorem join_of_isAbsolute (p : Path) {q : Path} (h : q.isAbsolute = true) : p.join q = q := by
  simp [join, h]

theorem empty_join (q : Path) : (⟨""⟩ : Path).join q = q := by
  simp [join, wantsSlash]

end Path
end ControlGroups
