import ControlGroups.Error

/-! Reading a table line by line. Every record goes to a receiver in order until a line is refused
or the receiver fails, and nothing after that is looked at. -/
namespace ControlGroups

/-- How far a scan came: the state of the receiver and the failure that ended it, if any. -/
structure Scan (σ : Type) where
  state : σ
  failure : Option Error

namespace Scan

variable {ρ σ : Type}

/-- The state after a whole scan, or the failure. -/
def result : Scan σ → Except Error σ
  | ⟨state, none⟩ => .ok state
  | ⟨_, some e⟩ => .error e

/-- A receiver's step that keeps its state where it fails. -/
def ofExcept (state : σ) : Except Error σ → Scan σ
  | .ok next => ⟨next, none⟩
  | .error e => ⟨state, some e⟩

/-- Has some lines parsed one by one and hands each record to a receiver, which shares a state with
the parser. The path is the one that a refused line is reported under. -/
def overLines (path : Path) (parse : σ → String → σ × Except LineError ρ)
    (receive : σ → ρ → Scan σ) : σ → List String → Scan σ
  | state, [] => ⟨state, none⟩
  | state, line :: lines =>
    match parse state line with
    | (seen, .error e) => ⟨seen, some (.parse path e)⟩
    | (seen, .ok record) =>
      match receive seen record with
      | ⟨next, none⟩ => overLines path parse receive next lines
      | stopped => stopped

/-- Lets a scan that came through end in a failure, if there is one. -/
def endIn : Scan σ → Option Error → Scan σ
  | ⟨state, none⟩, failure => ⟨state, failure⟩
  | stopped, _ => stopped

def textLines (bs : Bytes) : List String := (Text.lines bs).map Text.lineText

/-- The lines that can be read of a node, without their line ends. -/
def nodeLines (node : Node) : List String := node.lines.map Text.lineText

/-- Has the lines of a file parsed and hands the records to a receiver. The file is opened, and
named in errors, under the normal spelling of its path. A line is read when those before it have
been received, so a failure to read comes behind them. -/
def overFileWith (fs : FileSystem) (path : Path) (parse : σ → String → σ × Except LineError ρ)
    (receive : σ → ρ → Scan σ) (state : σ) : Scan σ :=
  match fs.find path.clean with
  | .error e => ⟨state, some (.fileOpen path.clean e)⟩
  | .ok node =>
    (overLines path.clean parse receive state (nodeLines node)).endIn
      (node.fault.map (.readLine path.clean))

/-- A parser that looks at nothing but the line and leaves the state as it is. -/
def stateless (parse : String → Except LineError ρ) (state : σ) (line : String) :
    σ × Except LineError ρ := (state, parse line)

/-- Hands the records of a file to a receiver. -/
def overFile (fs : FileSystem) (path : Path) (parse : String → Except LineError ρ)
    (receive : σ → ρ → Scan σ) (state : σ) : Scan σ :=
  overFileWith fs path (stateless parse) receive state

/-- Folds the records of a file with a step that may fail. -/
def foldFile (fs : FileSystem) (path : Path) (parse : String → Except LineError ρ)
    (step : σ → ρ → Except Error σ) (state : σ) : Except Error σ :=
  (overFile fs path parse (fun s r => ofExcept s (step s r)) state).result

@[simp] theorem endIn_none (s : Scan σ) : s.endIn none = s := by
  obtain ⟨state, _ | e⟩ := s <;> rfl

@[simp] theorem nodeLines_file (bs : Bytes) : nodeLines (.file bs) = textLines bs := rfl

/-- Behind the lines of a file that can be read to its end there is no failure. -/
theorem overFileWith_file {fs : FileSystem} {path : Path} {bs : Bytes}
    (h : fs.find path.clean = .ok (.file bs)) (parse : σ → String → σ × Except LineError ρ)
    (receive : σ → ρ → Scan σ) (state : σ) :
    overFileWith fs path parse receive state =
      overLines path.clean parse receive state (textLines bs) := by
  rw [overFileWith, h]
  exact endIn_none _

@[simp] theorem overLines_nil (path : Path) (parse : σ → String → σ × Except LineError ρ)
    (receive : σ → ρ → Scan σ) (state : σ) :
    overLines path parse receive state [] = ⟨state, none⟩ := rfl

/-- A scan of lines that went through goes on with the lines that follow. -/
theorem overLines_append {path : Path} {parse : σ → String → σ × Except LineError ρ}
    {receive : σ → ρ → Scan σ} {state next : σ} {lines : List String} (more : List String)
    (h : overLines path parse receive state lines = ⟨next, none⟩) :
    overLines path parse receive state (lines ++ more) =
      overLines path parse receive next more := by
  induction lines generalizing state with
  | nil => cases h; rfl
  | cons line lines ih =>
    rw [List.cons_append, overLines]
    rw [overLines] at h
    split at h
    · cases h
    · split at h
      · exact ih h
      · rename_i hne
        exact absurd h (hne next)

end Scan

def Mount.parse (line : String) : Except LineError Mount := (Mount.ofLine line).mapError .mount

def Membership.parse (line : String) : Except LineError Membership :=
  (Membership.ofLine line).mapError .membership

end ControlGroups
