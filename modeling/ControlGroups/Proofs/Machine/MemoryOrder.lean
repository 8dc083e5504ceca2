import Mathlib.Tactic.SplitIfs
import ControlGroups.Proofs.KeyTable.Order
import ControlGroups.Proofs.Machine.Memory

/-! A summary whose lines stand in another order. Each number goes to a field of its own, so it does
not matter which one is stored first. -/
namespace ControlGroups.MemoryInfo

variable {fs fs' : FileSystem} {path path' : Path} {bs bs' : Bytes}

theorem handle_table (info : MemoryInfo) (key : String) (n : Nat) : table.handle info (key, n) =
    if key = "MemTotal" then { info with total := ofKibibytes n }
    else if key = "MemFree" then { info with free := ofKibibytes n }
    else if key = "MemAvailable" then { info with available := some (ofKibibytes n) }
    else info := by
  split_ifs with ht hf ha
  · subst ht
    rfl
  · subst hf
    rfl
  · subst ha
    rfl
  · exact KeyTable.handle_of_not_mem (by simp [KeyTable.keys, table, ht, hf, ha]) info n

theorem commutes_table : table.Commutes := by
  rintro ⟨key, m⟩ ⟨other, n⟩ info hne
  have hne : key ≠ other := hne
  -- two known keys set two fields, and an unknown one sets none
  simp only [handle_table]
  split_ifs <;> simp_all

theorem readAt_eq_ok_of_endAlike {info : MemoryInfo} (hf : fs.find path.clean = .ok (.file bs))
    (hf' : fs'.find path'.clean = .ok (.file bs'))
    (h : KeyTable.EndAlike (table.read bs).1 (table.read bs').1) :
    readAt fs path = .ok info ↔ readAt fs' path' = .ok info := by
  rw [readAt_of_find hf, readAt_of_find hf', KeyTable.readNode_file, KeyTable.readNode_file]
  generalize (table.read bs).1 = answer at h
  generalize (table.read bs').1 = answer' at h
  cases h with
  | value other => by_cases hz : other.total = 0 <;> simp [hz]
  | malformed => simp

/-- The order of the lines of a summary does not matter. Where each of the three keys heads at most
one line that carries a value, any other order of the lines gives the same summary, or both orders
meet a malformed number, and the total and the memory in use are the same or fail in both. Lines of
other keys and lines without a value stand wherever they like. -/
theorem readers_ignore_order {lines lines' : List String}
    (noNewline : ∀ line ∈ lines, '\n' ∉ line.toList)
    (once : ∀ key ∈ ["MemTotal", "MemFree", "MemAvailable"], lines.countP (table.heads key) ≤ 1)
    (hp : lines.Perm lines') :
    KeyTable.EndAlike (table.read (Text.encode (Text.writeLines lines))).1
      (table.read (Text.encode (Text.writeLines lines'))).1 ∧
    ∀ (fs fs' : FileSystem) (path path' : Path),
      fs.find path.clean = .ok (.file (Text.encode (Text.writeLines lines))) →
      fs'.find path'.clean = .ok (.file (Text.encode (Text.writeLines lines'))) →
      (∀ info, readAt fs path = .ok info ↔ readAt fs' path' = .ok info) ∧
      (∀ total, totalMemory fs path = .ok total ↔ totalMemory fs' path' = .ok total) ∧
      ∀ used, usedMemory fs path = .ok used ↔ usedMemory fs' path' = .ok used := by
  have h := KeyTable.endAlike_writeLines commutes_table noNewline once hp
  refine ⟨h, ?_⟩
  intro fs fs' path path' hf hf'
  have hr (info : MemoryInfo) : readAt fs path = .ok info ↔ readAt fs' path' = .ok info :=
    readAt_eq_ok_of_endAlike hf hf' h
  refine ⟨hr, fun total => ?_, fun used => ?_⟩
  · simp only [totalMemory, map_eq_ok_iff, hr]
  · simp only [usedMemory, map_eq_ok_iff, hr]

/-- The two orders may meet different numbers that are malformed. -/
example : (table.read (Text.encode "MemTotal: x\nMemFree: -1\n")).1 =
      .error (.invalidKeyValue "MemTotal" "x" 1 .invalidDigit) ∧
    (table.read (Text.encode "MemFree: -1\nMemTotal: x\n")).1 =
      .error (.invalidKeyValue "MemFree" "-1" 1 .invalidDigit) := by
  constructor <;> rfl

def straightLines : List String :=
  ["Buffers: x", "MemTotal: 2048 kB", "MemTotal", "MemFree 7", "MemAvailable: 512 kB or so",
    "Buffers: 1 kB"]

def shuffledLines : List String :=
  ["MemAvailable: 512 kB or so", "MemTotal", "Buffers: 1 kB", "MemFree 7", "Buffers: x",
    "MemTotal: 2048 kB"]

/-- One summary in two orders. The first is read up to its last line but one, the second to its
end. -/
def rearrangedFiles : FileSystem where
  entries := [(["straight"], .file (Text.encode (Text.writeLines straightLines))),
    (["shuffled"], .file (Text.encode (Text.writeLines shuffledLines)))]
  workingDirectory := []

theorem readers_ignore_order_rearrangedFiles :
    (table.read (Text.encode (Text.writeLines straightLines))).2 = Text.encode "Buffers: 1 kB\n" ∧
      (table.read (Text.encode (Text.writeLines shuffledLines))).2 = [] ∧
      totalMemory rearrangedFiles ⟨"shuffled"⟩ = .ok 2097152 ∧
      usedMemory rearrangedFiles ⟨"shuffled"⟩ = .ok 1572864 := by
  have hf : rearrangedFiles.find (Path.mk "straight").clean =
      .ok (.file (Text.encode (Text.writeLines straightLines))) := eq_ok_of_toOption rfl
  have hf' : rearrangedFiles.find (Path.mk "shuffled").clean =
      .ok (.file (Text.encode (Text.writeLines shuffledLines))) := eq_ok_of_toOption rfl
  have hn : ∀ line ∈ straightLines, '\n' ∉ line.toList := by decide
  have ho : ∀ key ∈ ["MemTotal", "MemFree", "MemAvailable"],
      straightLines.countP (table.heads key) ≤ 1 := by decide
  have hp : straightLines.Perm shuffledLines := by decide
  obtain ⟨-, hr⟩ := readers_ignore_order hn ho hp
  obtain ⟨-, htotal, hused⟩ := hr _ _ _ _ hf hf'
  refine ⟨by decide +kernel, by decide +kernel, (htotal _).mp ?_, (hused _).mp ?_⟩
  · exact eq_ok_of_toOption (by decide)
  · exact eq_ok_of_toOption (by decide)

end ControlGroups.MemoryInfo
