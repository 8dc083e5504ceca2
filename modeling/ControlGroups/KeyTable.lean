import ControlGroups.Content

/-! Files of named numbers, one to a line: a key, the number, and whatever follows. Lines with an
unknown key or without a number are passed over. Where keys must not repeat, reading ends with the
line that completes them. -/
namespace ControlGroups

/-- The keys that are read from a file, each with what is done with its number. The suffix is
dropped once from the end of every key. -/
structure KeyTable (α : Type) where
  suffix : String
  repeatable : Bool
  start : α
  handlers : List (String × (Nat → α → α))
  distinct : (handlers.map Prod.fst).Nodup

namespace KeyTable

variable {α : Type}

/-- What the lines so far have given, and the keys that were on them. -/
structure Progress (α : Type) where
  value : α
  seen : List String

/-- Stores the number of one key. A number that is wrong is noticed before a key that repeats. -/
def store (t : KeyTable α) (line : Nat) (p : Progress α) (key value : String) :
    Except ContentError (Progress α) :=
  match t.handlers.lookup key with
  | none => .ok p
  | some handle => do
    let n ← (Text.readNat64 value).mapError (.invalidKeyValue key value line)
    if t.repeatable = false ∧ key ∈ p.seen then .error (.duplicateField key line)
    else .ok ⟨handle n p.value, key :: p.seen⟩

def readLine (t : KeyTable α) (line : Nat) (p : Progress α) (text : String) :
    Except ContentError (Progress α) :=
  match Text.words text with
  | key :: value :: _ => t.store line p (Text.dropTail t.suffix key) value
  | _ => .ok p

/-- Whether no further line can matter, which is told by how many keys were seen. -/
def isComplete (t : KeyTable α) (p : Progress α) : Bool :=
  !t.repeatable && p.seen.length == t.handlers.length

/-- The answer behind the last line: what was read, or the failure that comes instead of the end of
the file. -/
def finish (fault : Option FileError) (p : Progress α) : Except ContentError α :=
  match fault with
  | none => .ok p.value
  | some cause => .error (.file cause)

/-- Reads lines until they end, one is refused or the keys are complete, and gives back the lines
that follow. -/
def readLines (t : KeyTable α) (fault : Option FileError) : Nat → Progress α → List Bytes →
    Except ContentError α × List Bytes
  | _, p, [] => (finish fault p, [])
  | line, p, l :: ls =>
    match Content.lineText l >>= t.readLine line p with
    | .error e => (.error e, ls)
    | .ok next =>
      if t.isComplete next then (.ok next.value, ls) else t.readLines fault (line + 1) next ls

/-- Reads a table from some bytes and gives back the bytes that follow it. -/
def read (t : KeyTable α) (bs : Bytes) : Except ContentError α × Bytes :=
  let outcome := t.readLines none 1 ⟨t.start, []⟩ (Text.lines bs)
  (outcome.1, outcome.2.flatten)

/-- Reads a table from a node. -/
def readNode (t : KeyTable α) (node : Node) : Except ContentError α :=
  (t.readLines node.fault 1 ⟨t.start, []⟩ node.lines).1

@[simp] theorem readNode_file (t : KeyTable α) (bs : Bytes) :
    t.readNode (.file bs) = (t.read bs).1 := rfl

end KeyTable
end ControlGroups
