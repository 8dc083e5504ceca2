import ControlGroups.Proofs.KeyTable.Ending

/-! The numbers that reading a table stores, by the calls of handlers that store them. -/
namespace ControlGroups.KeyTable

variable {α : Type} {t : KeyTable α} {node : Node} {calls : List (String × Nat)}

/-- The calls that a file leads to where nothing of it is refused: those of all lines, if they can
be read to the end, or those of the lines up to the one that completes the keys. -/
inductive Stores (t : KeyTable α) (node : Node) : List (String × Nat) → Prop
  | through {calls : List (String × Nat)} (whole : node.fault = none)
      (passed : t.Passed node.lines calls) : t.Stores node calls
  | complete {before left : List Bytes} {l : Bytes} {calls : List (String × Nat)}
      {call : Option (String × Nat)} (split : node.lines = before ++ l :: left)
      (passed : t.Passed before calls) (asks : t.Asks l call) (fresh : t.Fresh calls call)
      (complete : t.Complete (calls ++ call.toList)) : t.Stores node (calls ++ call.toList)

theorem Stores.readNode_eq (h : t.Stores node calls) : t.readNode node = .ok (t.apply calls) := by
  cases h with
  | through whole passed =>
    refine readNode_eq_of_ending (List.append_nil _).symm ?_
    rw [whole]
    exact .through passed
  | complete split passed asks fresh complete =>
    rw [List.append_cons] at split
    exact readNode_eq_of_ending split (.complete passed asks fresh complete)

/-- A value is read exactly where some calls are stored, and it is what they make. -/
theorem readNode_eq_ok_iff_stores {value : α} :
    t.readNode node = .ok value ↔ ∃ calls, t.Stores node calls ∧ value = t.apply calls := by
  constructor
  · intro h
    obtain ⟨taken, hl, he⟩ := exists_ending_readLines t node.fault node.lines
    have hv : (t.readLines node.fault 1 ⟨t.start, []⟩ node.lines).1 = .ok value := h
    rw [hv] at he
    generalize (t.readLines node.fault 1 ⟨t.start, []⟩ node.lines).2 = left at hl he
    generalize hw : node.fault = fault at he
    cases he with
    | through passed =>
      rw [List.append_nil] at hl
      exact ⟨_, .through hw (hl ▸ passed), rfl⟩
    | complete passed asks fresh complete =>
      rw [← List.append_cons] at hl
      exact ⟨_, .complete hl passed asks fresh complete, rfl⟩
  · rintro ⟨calls, h, rfl⟩
    exact h.readNode_eq

theorem Stores.reached (h : t.Stores node calls) : t.Reached calls := by
  cases h with
  | through whole passed => exact passed.reached
  | complete split passed asks fresh complete => exact passed.reached.append asks fresh

end ControlGroups.KeyTable
