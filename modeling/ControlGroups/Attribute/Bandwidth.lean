import ControlGroups.Attribute.Basic

/-! Processor time: so many microseconds in every period of so many microseconds. -/
namespace ControlGroups

/-- A share of processor time, which is positive and finite. -/
structure Cores where
  quota : Nat
  period : Nat
  quota_pos : 0 < quota
  period_pos : 0 < period
  deriving DecidableEq, Repr

/-- The share that a quota and a period make, if both are positive. -/
def Cores.of? (quota period : Nat) : Option Cores :=
  if h : 0 < quota ∧ 0 < period then some ⟨quota, period, h.1, h.2⟩ else none

/-- The share as a number of processors: both numbers are rounded before they are divided. -/
def Cores.toFloat (c : Cores) : Float := Float.ofNat c.quota / Float.ofNat c.period

/-- A quota, which may be unlimited, and its period in one file. -/
structure CpuMax where
  quota : Option Nat
  period : Nat
  deriving DecidableEq, Repr

/-- The share of processor time that is allowed, if it is limited to one. -/
def CpuMax.cores? (m : CpuMax) : Option Cores := m.quota.bind (Cores.of? · m.period)

namespace Attribute

def unlimitedWord : String := "max"

/-- Reads a number, or the word for the absence of a limit. -/
def parseLimit (value : String) : Except ContentError (Option Int) :=
  if value = unlimitedWord then .ok none else (Content.int64 value).map some

/-- The period of a quota that comes without one. -/
def defaultPeriod : Nat := 100000

/-- Reads a period. A negative one counts as zero. -/
def parsePeriod : Option String → Except ContentError Nat
  | none => .ok defaultPeriod
  | some value => (Content.int64 value).map Int.toNat

/-- Reads a quota and its period from the first two words. A negative quota counts as zero. -/
def parseCpuMax (value : String) : Except ContentError CpuMax := do
  let words := Text.words value
  let quota ← parseLimit (words.headD "")
  let period ← parsePeriod words[1]?
  .ok ⟨quota.map Int.toNat, period⟩

def cpuMax : Attribute CpuMax := ⟨parseCpuMax⟩

/-- The attribute that holds a quota. Only a positive one is a limit. -/
def cfsQuota : Attribute (Option Int) :=
  ⟨fun value => (Content.int64 value).map fun quota => if 0 < quota then some quota else none⟩

def cfsPeriod : Attribute Int := ⟨Content.int64⟩

end Attribute

@[simp] theorem Cores.of?_eq_none_iff {quota period : Nat} :
    Cores.of? quota period = none ↔ quota = 0 ∨ period = 0 := by
  simp only [Cores.of?, dite_eq_right_iff, reduceCtorEq, imp_false]
  omega

end ControlGroups
