/-! UTF-8, read one byte at a time. A sequence that breaks off is one malformed unit, and the byte
that broke it is read afresh, so an error never reaches past the byte that shows it. -/
namespace ControlGroups

abbrev Bytes := List UInt8

namespace Text

/-- A character whose first bytes have been read: how many are still to come, the range that the
next one has to lie in, and the bits collected so far. -/
structure Pending where
  more : Nat
  low : UInt8
  high : UInt8
  bits : Nat
  deriving DecidableEq, Repr

/-- What the first byte of a longer sequence announces. The narrow ranges keep out overlong forms,
surrogates and code points past the last one. -/
def lead (b : UInt8) : Option Pending :=
  if 0xC2 ≤ b ∧ b ≤ 0xDF then some ⟨1, 0x80, 0xBF, b.toNat - 0xC0⟩
  else if b = 0xE0 then some ⟨2, 0xA0, 0xBF, 0⟩
  else if b = 0xED then some ⟨2, 0x80, 0x9F, 0xD⟩
  else if 0xE1 ≤ b ∧ b ≤ 0xEF then some ⟨2, 0x80, 0xBF, b.toNat - 0xE0⟩
  else if b = 0xF0 then some ⟨3, 0x90, 0xBF, 0⟩
  else if 0xF1 ≤ b ∧ b ≤ 0xF3 then some ⟨3, 0x80, 0xBF, b.toNat - 0xF0⟩
  else if b = 0xF4 then some ⟨3, 0x80, 0x8F, 4⟩
  else none

/-- A decoded unit: a character, or `none` for a malformed sequence. -/
abbrev Decoded := Option Char

/-- The units that a byte completes between characters, and the character it opens. -/
def startAt (b : UInt8) : List Decoded × Option Pending :=
  if b < 0x80 then ([some (Char.ofNat b.toNat)], none)
  else match lead b with
    | some p => ([], some p)
    | none => ([none], none)

/-- The units that a byte completes, and the character that is open after it. -/
def feed : Option Pending → UInt8 → List Decoded × Option Pending
  | none, b => startAt b
  | some p, b =>
    if p.low ≤ b ∧ b ≤ p.high then
      let bits := p.bits * 64 + (b.toNat - 0x80)
      if p.more ≤ 1 then ([some (Char.ofNat bits)], none)
      else ([], some ⟨p.more - 1, 0x80, 0xBF, bits⟩)
    else (none :: (startAt b).1, (startAt b).2)

/-- A character still open at the end is malformed. -/
def flush : Option Pending → List Decoded
  | none => []
  | some _ => [none]

/-- The units of the bytes that follow an open character. -/
def decodeFrom : Option Pending → Bytes → List Decoded
  | p, [] => flush p
  | p, b :: bs => (feed p b).1 ++ decodeFrom (feed p b).2 bs

def decode (bs : Bytes) : List Decoded := decodeFrom none bs

def replacement : Char := '\uFFFD'

/-- The text of a byte sequence, each malformed unit replaced by one character. -/
def decodeLossy (bs : Bytes) : String :=
  String.ofList ((decode bs).map (·.getD replacement))

/-- The text of a byte sequence without malformed units. -/
def decode? (bs : Bytes) : Option String :=
  ((decode bs).mapM id).map String.ofList

def encode (s : String) : Bytes :=
  s.toList.flatMap String.utf8EncodeChar

@[simp] theorem decodeFrom_nil (p : Option Pending) : decodeFrom p [] = flush p := rfl

@[simp] theorem decodeFrom_cons (p : Option Pending) (b : UInt8) (bs : Bytes) :
    decodeFrom p (b :: bs) = (feed p b).1 ++ decodeFrom (feed p b).2 bs := rfl

end Text
end ControlGroups
