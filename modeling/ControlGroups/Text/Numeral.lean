/-! Decimal numerals of bounded size. Digits are read from left to right, and the first problem met
is the one reported: a character that is no digit, or a digit that takes the value out of range. -/
namespace ControlGroups.Text

inductive NumeralError where
  | empty
  | invalidDigit
  | tooLarge
  | tooSmall
  deriving DecidableEq, Repr

def NumeralError.message : NumeralError → String
  | .empty => "cannot parse integer from empty string"
  | .invalidDigit => "invalid digit found in string"
  | .tooLarge => "number too large to fit in target type"
  | .tooSmall => "number too small to fit in target type"

def digit? (c : Char) : Option Nat :=
  if '0' ≤ c ∧ c ≤ '9' then some (c.toNat - '0'.toNat) else none

/-- The value of the digits after those that gave `value`, as long as it stays at most `limit`. -/
def readDigits (limit : Nat) (overflow : NumeralError) : Nat → List Char → Except NumeralError Nat
  | value, [] => .ok value
  | value, c :: cs =>
    match digit? c with
    | none => .error .invalidDigit
    | some d =>
      if value * 10 + d ≤ limit then readDigits limit overflow (value * 10 + d) cs
      else .error overflow

/-- The value of at least one digit; a sign alone counts as a wrong digit. -/
def readMagnitude (limit : Nat) (overflow : NumeralError) : List Char → Except NumeralError Nat
  | [] => .error .invalidDigit
  | cs => readDigits limit overflow 0 cs

/-- Reads a natural number at most `limit`; a plus sign may stand before it. -/
def readNat (limit : Nat) (s : String) : Except NumeralError Nat :=
  match s.toList with
  | [] => .error .empty
  | '+' :: cs => readMagnitude limit .tooLarge cs
  | cs => readMagnitude limit .tooLarge cs

def maxInt64 : Nat := 0x7fffffffffffffff

def maxNat64 : Nat := 0xffffffffffffffff

def maxNat32 : Nat := 0xffffffff

/-- Reads an integer that fits a signed 64-bit word; a sign may stand before it. -/
def readInt64 (s : String) : Except NumeralError Int :=
  match s.toList with
  | [] => .error .empty
  | '-' :: cs => (readMagnitude (maxInt64 + 1) .tooSmall cs).map fun n => -(n : Int)
  | '+' :: cs => (readMagnitude maxInt64 .tooLarge cs).map Int.ofNat
  | cs => (readMagnitude maxInt64 .tooLarge cs).map Int.ofNat

def readNat64 (s : String) : Except NumeralError Nat := readNat maxNat64 s

def readNat32 (s : String) : Except NumeralError UInt32 :=
  (readNat maxNat32 s).map UInt32.ofNat

/-- The canonical numeral: no sign and no leading zero. -/
def decimal (n : Nat) : String := Nat.repr n

/-- A value that was read is in range. -/
theorem readDigits_le {limit : Nat} {overflow : NumeralError} {v n : Nat} {cs : List Char}
    (hv : v ≤ limit) (h : readDigits limit overflow v cs = .ok n) : n ≤ limit := by
  induction cs generalizing v with
  | nil => simp only [readDigits, Except.ok.injEq] at h; omega
  | cons c cs ih =>
    rw [readDigits] at h
    split at h
    · cases h
    · split at h
      · rename_i hle; exact ih hle h
      · cases h

end ControlGroups.Text
