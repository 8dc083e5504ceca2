import Mathlib.Data.List.Perm.Subperm
import ControlGroups.KeyTable
import ControlGroups.Proofs.Failure
import ControlGroups.Proofs.Text.Fields
import ControlGroups.Proofs.Text.Lines

/-! Every way in which reading a table of named numbers can end. The rules speak of the lines that
were read, of the calls of handlers that they led to, and of the line that ended it. -/
namespace ControlGroups.KeyTable

variable {α : Type} {t : KeyTable α}

/-- The keys that a table knows. -/
def keys (t : KeyTable α) : List String := t.handlers.map Prod.fst

/-- A line with a known key, less the suffix, and a second word. -/
def Entry (t : KeyTable α) (text key value : String) : Prop :=
  ∃ word more, Text.words text = word :: value :: more ∧ Text.Stripped t.suffix word key ∧
    key ∈ t.keys

/-- The call of a handler, named by its key, that a line asks for. Most lines ask for none. -/
inductive Asks (t : KeyTable α) (l : Bytes) : Option (String × Nat) → Prop
  | nothing {text : String} (decoded : Text.decode? l = some text)
      (other : ∀ key value, ¬ t.Entry text key value) : t.Asks l none
  | number {text key value : String} {n : Nat} (decoded : Text.decode? l = some text)
      (entry : t.Entry text key value) (number : Text.readNat64 value = .ok n) :
      t.Asks l (some (key, n))

/-- What the handler of a key makes of a number. -/
def handle (t : KeyTable α) (value : α) (call : String × Nat) : α :=
  match t.handlers.lookup call.1 with
  | none => value
  | some f => f call.2 value

/-- What some calls make of the initial value. -/
def apply (t : KeyTable α) (calls : List (String × Nat)) : α := calls.foldl t.handle t.start

/-- Where keys must not repeat, the key of a call is not one that was called before. -/
def Fresh (t : KeyTable α) (calls : List (String × Nat)) (call : Option (String × Nat)) : Prop :=
  t.repeatable = false → ∀ c ∈ call, c.1 ∉ calls.map Prod.fst

/-- Keys must not repeat and all were called. -/
def Complete (t : KeyTable α) (calls : List (String × Nat)) : Prop :=
  t.repeatable = false ∧ ∀ key ∈ t.keys, key ∈ calls.map Prod.fst

/-- Lines none of which ends reading, and the calls they lead to. -/
inductive Passed (t : KeyTable α) : List Bytes → List (String × Nat) → Prop
  | nil : t.Passed [] []
  | snoc {before : List Bytes} {l : Bytes} {calls : List (String × Nat)}
      {call : Option (String × Nat)} (passed : t.Passed before calls) (asks : t.Asks l call)
      (fresh : t.Fresh calls call) (incomplete : ¬ t.Complete (calls ++ call.toList)) :
      t.Passed (before ++ [l]) (calls ++ call.toList)

/-- How reading ends: the failure behind the lines, if they do not end the file, the lines taken,
the lines left and the answer. A line that ends reading is the last one taken, and nothing depends
on what is behind it. -/
inductive Ending (t : KeyTable α) :
    Option FileError → List Bytes → List Bytes → Except ContentError α → Prop
  | through {taken : List Bytes} {calls : List (String × Nat)} (passed : t.Passed taken calls) :
      t.Ending none taken [] (.ok (t.apply calls))
  | unread {taken : List Bytes} {calls : List (String × Nat)} {cause : FileError}
      (passed : t.Passed taken calls) : t.Ending (some cause) taken [] (.error (.file cause))
  | complete {fault : Option FileError} {before left : List Bytes} {l : Bytes}
      {calls : List (String × Nat)} {call : Option (String × Nat)}
      (passed : t.Passed before calls) (asks : t.Asks l call)
      (fresh : t.Fresh calls call) (complete : t.Complete (calls ++ call.toList)) :
      t.Ending fault (before ++ [l]) left (.ok (t.apply (calls ++ call.toList)))
  | undecodable {fault : Option FileError} {before left : List Bytes} {l : Bytes}
      {calls : List (String × Nat)}
      (passed : t.Passed before calls) (undecodable : Text.decode? l = none) :
      t.Ending fault (before ++ [l]) left (.error (.file .invalidUtf8))
  | malformed {fault : Option FileError} {before left : List Bytes} {l : Bytes}
      {calls : List (String × Nat)}
      {text key value : String} {cause : Text.NumeralError} (passed : t.Passed before calls)
      (decoded : Text.decode? l = some text) (entry : t.Entry text key value)
      (malformed : Text.readNat64 value = .error cause) :
      t.Ending fault (before ++ [l]) left
        (.error (.invalidKeyValue key value (before.length + 1) cause))
  | repeated {fault : Option FileError} {before left : List Bytes} {l : Bytes}
      {calls : List (String × Nat)} {key : String}
      {n : Nat} (passed : t.Passed before calls) (asks : t.Asks l (some (key, n)))
      (unrepeatable : t.repeatable = false) (seen : key ∈ calls.map Prod.fst) :
      t.Ending fault (before ++ [l]) left (.error (.duplicateField key (before.length + 1)))

/-- The state in which a table is read on after some calls. -/
def progress (t : KeyTable α) (calls : List (String × Nat)) : Progress α :=
  ⟨t.apply calls, (calls.map Prod.fst).reverse⟩

theorem progress_append (t : KeyTable α) (calls : List (String × Nat)) (key : String) (n : Nat) :
    t.progress (calls ++ [(key, n)]) =
      ⟨t.handle (t.apply calls) (key, n), key :: (t.progress calls).seen⟩ := by
  simp [progress, apply]

theorem mem_seen_progress {calls : List (String × Nat)} {key : String} :
    key ∈ (t.progress calls).seen ↔ key ∈ calls.map Prod.fst := List.mem_reverse

section Seen
variable {l : Bytes} {calls : List (String × Nat)} {call : Option (String × Nat)}

/-- What holds of the calls at every point of reading: only known keys are called and, where keys
must not repeat, each of them once. -/
structure Reached (t : KeyTable α) (calls : List (String × Nat)) : Prop where
  known : ∀ key ∈ calls.map Prod.fst, key ∈ t.keys
  nodup : t.repeatable = false → (calls.map Prod.fst).Nodup

theorem reached_nil (t : KeyTable α) : t.Reached [] := ⟨by simp, by simp⟩

theorem Entry.mem_keys {text key value : String} (h : t.Entry text key value) : key ∈ t.keys := by
  obtain ⟨word, more, -, -, hk⟩ := h
  exact hk

theorem Asks.mem_keys {key : String} {n : Nat} (h : t.Asks l (some (key, n))) : key ∈ t.keys := by
  cases h with
  | number decoded entry number => exact entry.mem_keys

theorem Reached.append (h : t.Reached calls) (asks : t.Asks l call) (fresh : t.Fresh calls call) :
    t.Reached (calls ++ call.toList) := by
  cases call with
  | none => simpa using h
  | some c =>
    have hs : (calls ++ [c]).map Prod.fst = calls.map Prod.fst ++ [c.1] := by simp
    constructor
    · intro key hk
      rw [Option.toList_some, hs, List.mem_append, List.mem_singleton] at hk
      rcases hk with hk | rfl
      · exact h.known key hk
      · exact asks.mem_keys
    · intro hr
      rw [Option.toList_some, hs, List.nodup_append]
      refine ⟨h.nodup hr, by simp, ?_⟩
      rintro key hk _ hm rfl
      rw [List.mem_singleton.mp hm] at hk
      exact fresh hr c rfl hk

theorem Passed.reached {before : List Bytes} (h : t.Passed before calls) : t.Reached calls := by
  induction h with
  | nil => exact reached_nil t
  | snoc passed asks fresh incomplete ih => exact ih.append asks fresh

/-- Reading stops early exactly where the keys are complete. As many keys were called as there are
and none of them twice, so they are all of them. -/
theorem isComplete_progress (h : t.Reached calls) :
    t.isComplete (t.progress calls) = true ↔ t.Complete calls := by
  rw [isComplete, Complete, Bool.and_eq_true, Bool.not_eq_true', beq_iff_eq]
  refine and_congr_right fun hr => ?_
  have hseen : (t.progress calls).seen.length = (calls.map Prod.fst).length := List.length_reverse
  have hkeys : t.handlers.length = t.keys.length := (List.length_map _).symm
  have hsub : (calls.map Prod.fst).Subperm t.keys := (h.nodup hr).subperm h.known
  rw [hseen, hkeys]
  constructor
  · intro hl key hk
    exact (hsub.perm_of_length_le hl.ge).mem_iff.mpr hk
  · intro hk
    exact Nat.le_antisymm hsub.length_le (t.distinct.subperm hk).length_le

end Seen

theorem store_of_mem {key value : String} (h : key ∈ t.keys) (line : Nat) (p : Progress α) :
    t.store line p key value =
      (Text.readNat64 value).mapError (.invalidKeyValue key value line) >>= fun n =>
        if t.repeatable = false ∧ key ∈ p.seen then .error (.duplicateField key line)
        else .ok ⟨t.handle p.value (key, n), key :: p.seen⟩ := by
  cases hl : t.handlers.lookup key with
  | none =>
    obtain ⟨handler, hm, he⟩ := List.mem_map.mp h
    exact absurd (List.lookup_eq_none_iff.mp hl handler hm) (by simp [he])
  | some f => simp only [store, handle, hl]

theorem lookup_eq_none_of_not_mem {β : Type} {l : List (String × β)} {key : String}
    (h : key ∉ l.map Prod.fst) : l.lookup key = none := by
  rw [List.lookup_eq_none_iff]
  intro entry he
  rw [bne_iff_ne]
  rintro rfl
  exact h (List.mem_map_of_mem he)

theorem store_of_not_mem {key : String} (h : key ∉ t.keys) (line : Nat) (p : Progress α)
    (value : String) : t.store line p key value = .ok p := by
  simp only [store, lookup_eq_none_of_not_mem h]

theorem handle_of_not_mem {key : String} (h : key ∉ t.keys) (value : α) (n : Nat) :
    t.handle value (key, n) = value := by
  simp only [handle, lookup_eq_none_of_not_mem h]

theorem readLine_of_entry {text key value : String} (h : t.Entry text key value) (line : Nat)
    (p : Progress α) : t.readLine line p text = t.store line p key value := by
  obtain ⟨word, more, hw, hs, -⟩ := h
  simp only [readLine, hw, Text.stripped_iff.mp hs]

/-- A line without an entry is passed over. -/
theorem readLine_of_not_entry {text : String} (h : ∀ key value, ¬ t.Entry text key value)
    (line : Nat) (p : Progress α) : t.readLine line p text = .ok p := by
  unfold readLine
  split
  · rename_i word value more hw
    exact store_of_not_mem (fun hk => h _ value ⟨word, more, hw, Text.stripped_iff.mpr rfl, hk⟩) ..
  · rfl

section Step
variable {fault : Option FileError} {l : Bytes} {text key value : String}
  {calls : List (String × Nat)} {call : Option (String × Nat)} {n : Nat}

/-- One line as it is read after some calls. -/
def step (t : KeyTable α) (line : Nat) (calls : List (String × Nat)) (l : Bytes) :
    Except ContentError (Progress α) :=
  Content.lineText l >>= t.readLine line (t.progress calls)

theorem step_of_decode (h : Text.decode? l = some text) (line : Nat) :
    t.step line calls l = t.readLine line (t.progress calls) text := by
  rw [step, Content.lineText, h, ok_bind]

theorem step_of_undecodable (h : Text.decode? l = none) (line : Nat) :
    t.step line calls l = .error (.file .invalidUtf8) := by
  rw [step, Content.lineText, h, error_bind]

theorem step_of_malformed {cause : Text.NumeralError} (decoded : Text.decode? l = some text)
    (entry : t.Entry text key value) (malformed : Text.readNat64 value = .error cause)
    (line : Nat) : t.step line calls l = .error (.invalidKeyValue key value line cause) := by
  rw [step_of_decode decoded, readLine_of_entry entry, store_of_mem entry.mem_keys, malformed,
    mapError_error, error_bind]

/-- A line with a number is refused where its key repeats, else its handler is called. -/
theorem step_of_number (decoded : Text.decode? l = some text) (entry : t.Entry text key value)
    (number : Text.readNat64 value = .ok n) (line : Nat) :
    t.step line calls l =
      if t.repeatable = false ∧ key ∈ calls.map Prod.fst then .error (.duplicateField key line)
      else .ok (t.progress (calls ++ [(key, n)])) := by
  simp only [step_of_decode decoded, readLine_of_entry entry, store_of_mem entry.mem_keys, number,
    mapError_ok, ok_bind, mem_seen_progress, progress_append]
  rfl

theorem step_of_asks (asks : t.Asks l call) (fresh : t.Fresh calls call) (line : Nat) :
    t.step line calls l = .ok (t.progress (calls ++ call.toList)) := by
  cases asks with
  | nothing decoded other =>
    rw [step_of_decode decoded, readLine_of_not_entry other, Option.toList_none, List.append_nil]
  | number decoded entry number =>
    rw [step_of_number decoded entry number, if_neg, Option.toList_some]
    rintro ⟨hr, hs⟩
    exact fresh hr _ rfl hs

theorem step_of_repeated (asks : t.Asks l (some (key, n))) (unrepeatable : t.repeatable = false)
    (seen : key ∈ calls.map Prod.fst) (line : Nat) :
    t.step line calls l = .error (.duplicateField key line) := by
  cases asks with
  | number decoded entry number =>
    rw [step_of_number decoded entry number, if_pos ⟨unrepeatable, seen⟩]

theorem readLines_of_step_error {e : ContentError} {line : Nat} (h : t.step line calls l = .error e)
    (left : List Bytes) :
    t.readLines fault line (t.progress calls) (l :: left) = (.error e, left) := by
  rw [step] at h
  rw [readLines, h]

theorem readLines_of_complete {more : List (String × Nat)} {line : Nat}
    (h : t.step line calls l = .ok (t.progress more)) (hr : t.Reached more)
    (hc : t.Complete more) (left : List Bytes) :
    t.readLines fault line (t.progress calls) (l :: left) = (.ok (t.apply more), left) := by
  rw [step] at h
  simp only [readLines, h, (isComplete_progress hr).mpr hc, if_true]
  rfl

theorem readLines_of_incomplete {more : List (String × Nat)} {line : Nat}
    (h : t.step line calls l = .ok (t.progress more)) (hr : t.Reached more)
    (hc : ¬ t.Complete more) (left : List Bytes) :
    t.readLines fault line (t.progress calls) (l :: left) =
      t.readLines fault (line + 1) (t.progress more) left := by
  rw [step] at h
  simp only [readLines, h, mt (isComplete_progress hr).mp hc]
  rfl

end Step

section Run
variable {fault : Option FileError} {before taken left : List Bytes} {calls : List (String × Nat)}
  {answer : Except ContentError α}

theorem Passed.readLines_append (h : t.Passed before calls) (left : List Bytes) :
    t.readLines fault 1 (t.progress []) (before ++ left) =
      t.readLines fault (before.length + 1) (t.progress calls) left := by
  induction h generalizing left with
  | nil => rfl
  | @snoc before l calls call passed asks fresh incomplete ih =>
    have hr := passed.reached.append asks fresh
    rw [List.append_assoc, List.singleton_append, ih,
      readLines_of_incomplete (step_of_asks asks fresh _) hr incomplete, List.length_append,
      List.length_singleton]

/-- The line behind those that were passed is read under its own number. -/
theorem Passed.readLines_concat (h : t.Passed before calls) (l : Bytes) (left : List Bytes) :
    t.readLines fault 1 (t.progress []) (before ++ [l] ++ left) =
      t.readLines fault (before.length + 1) (t.progress calls) (l :: left) := by
  rw [List.append_assoc, List.singleton_append, h.readLines_append]

theorem Ending.readLines_eq (h : t.Ending fault taken left answer) :
    t.readLines fault 1 (t.progress []) (taken ++ left) = (answer, left) := by
  cases h with
  | through passed =>
    rw [passed.readLines_append]
    rfl
  | unread passed =>
    rw [passed.readLines_append]
    rfl
  | complete passed asks fresh complete =>
    have hr := passed.reached.append asks fresh
    rw [passed.readLines_concat, readLines_of_complete (step_of_asks asks fresh _) hr complete]
  | undecodable passed undecodable =>
    rw [passed.readLines_concat, readLines_of_step_error (step_of_undecodable undecodable _)]
  | malformed passed decoded entry malformed =>
    rw [passed.readLines_concat,
      readLines_of_step_error (step_of_malformed decoded entry malformed _)]
  | repeated passed asks unrepeatable seen =>
    rw [passed.readLines_concat,
      readLines_of_step_error (step_of_repeated asks unrepeatable seen _)]

/-- A line is no text, or has a number that is malformed, or asks for a call or for none. -/
theorem line_cases (t : KeyTable α) (l : Bytes) :
    Text.decode? l = none ∨
    (∃ text key value cause, Text.decode? l = some text ∧ t.Entry text key value ∧
      Text.readNat64 value = .error cause) ∨
    ∃ call, t.Asks l call := by
  cases hd : Text.decode? l with
  | none => exact .inl rfl
  | some text =>
    by_cases he : ∃ key value, t.Entry text key value
    · obtain ⟨key, value, entry⟩ := he
      cases hn : Text.readNat64 value with
      | error cause => exact .inr (.inl ⟨text, key, value, cause, rfl, entry, hn⟩)
      | ok n => exact .inr (.inr ⟨_, .number hd entry hn⟩)
    · have other : ∀ key value, ¬ t.Entry text key value :=
        fun key value entry => he ⟨key, value, entry⟩
      exact .inr (.inr ⟨none, .nothing hd other⟩)

/-- Where keys must not repeat, a call is fresh or repeats a key. -/
theorem fresh_or_repeated (t : KeyTable α) (calls : List (String × Nat))
    (call : Option (String × Nat)) :
    t.Fresh calls call ∨
      ∃ key n, call = some (key, n) ∧ t.repeatable = false ∧ key ∈ calls.map Prod.fst := by
  by_cases h : t.Fresh calls call
  · exact .inl h
  · simp only [Fresh, not_forall, not_not] at h
    obtain ⟨hr, ⟨key, n⟩, hc, hm⟩ := h
    exact .inr ⟨key, n, hc, hr, hm⟩

/-- Lines behind some that did not end reading lead to an ending. -/
theorem exists_ending_append (h : t.Passed before calls) (fault : Option FileError)
    (ls : List Bytes) :
    ∃ taken left answer, before ++ ls = taken ++ left ∧ t.Ending fault taken left answer := by
  induction ls generalizing before calls with
  | nil =>
    cases fault with
    | none => exact ⟨before, [], _, rfl, .through h⟩
    | some cause => exact ⟨before, [], _, rfl, .unread h⟩
  | cons l ls ih =>
    have hs : before ++ l :: ls = (before ++ [l]) ++ ls := by simp
    rcases line_cases t l with hd | ⟨text, key, value, cause, hd, entry, hn⟩ | ⟨call, asks⟩
    · exact ⟨before ++ [l], ls, _, hs, .undecodable h hd⟩
    · exact ⟨before ++ [l], ls, _, hs, .malformed h hd entry hn⟩
    · rcases fresh_or_repeated t calls call with fresh | ⟨key, n, rfl, hr, hm⟩
      · by_cases hc : t.Complete (calls ++ call.toList)
        · exact ⟨before ++ [l], ls, _, hs, .complete h asks fresh hc⟩
        · rw [hs]
          exact ih (.snoc h asks fresh hc)
      · exact ⟨before ++ [l], ls, _, hs, .repeated h asks hr hm⟩

/-- Every run over some lines is one of the endings. -/
theorem exists_ending_readLines (t : KeyTable α) (fault : Option FileError) (ls : List Bytes) :
    ∃ taken, ls = taken ++ (t.readLines fault 1 ⟨t.start, []⟩ ls).2 ∧
      t.Ending fault taken (t.readLines fault 1 ⟨t.start, []⟩ ls).2
        (t.readLines fault 1 ⟨t.start, []⟩ ls).1 := by
  obtain ⟨taken, left, answer, hl, h⟩ := exists_ending_append .nil fault (t := t) ls
  rw [List.nil_append] at hl
  have hr : t.readLines fault 1 ⟨t.start, []⟩ ls = (answer, left) := hl ▸ h.readLines_eq
  rw [hr]
  exact ⟨taken, hl, h⟩

theorem readNode_eq_of_ending {node : Node} (hl : node.lines = taken ++ left)
    (h : t.Ending node.fault taken left answer) : t.readNode node = answer := by
  have hr : t.readLines node.fault 1 ⟨t.start, []⟩ node.lines = (answer, left) := by
    rw [hl]
    exact h.readLines_eq
  rw [readNode, hr]

theorem read_eq_of_ending {bs : Bytes} (hl : Text.lines bs = taken ++ left)
    (h : t.Ending none taken left answer) : t.read bs = (answer, left.flatten) := by
  have hr : t.readLines none 1 ⟨t.start, []⟩ (Text.lines bs) = (answer, left) := by
    rw [hl]
    exact h.readLines_eq
  simp only [read, hr]

/-- What a table takes from some bytes are whole lines. -/
theorem exists_ending_read (t : KeyTable α) (bs : Bytes) :
    ∃ taken, Text.lines bs = taken ++ Text.lines (t.read bs).2 ∧
      t.Ending none taken (Text.lines (t.read bs).2) (t.read bs).1 := by
  obtain ⟨taken, hl, h⟩ := exists_ending_readLines t none (Text.lines bs)
  rw [read_eq_of_ending hl h, Text.lines_flatten_of_lines_eq hl]
  exact ⟨taken, hl, h⟩

/-- A table is read line by line. Reading calls the handlers for the lines that ask for it, in their
order, until one of the rules ends it. -/
theorem read_eq_iff_ending {bs rest : Bytes} :
    t.read bs = (answer, rest) ↔
      ∃ taken, Text.lines bs = taken ++ Text.lines rest ∧
        t.Ending none taken (Text.lines rest) answer := by
  constructor
  · intro h
    have hr := exists_ending_read t bs
    rwa [h] at hr
  · rintro ⟨taken, hl, h⟩
    rw [read_eq_of_ending hl h, Text.lines_flatten]

/-- The suffix is dropped and words behind the number are passed over. The line that completes the
keys is the last one taken, so the malformed one behind it does no harm. -/
example : (KeyTable.mk ":" false 0 [("a", fun n _ => n)] (by decide)).read
    (Text.encode "b x\na: 5 kB\na: x\n") = (.ok 5, Text.encode "a: x\n") := by
  rfl

end Run
end ControlGroups.KeyTable
