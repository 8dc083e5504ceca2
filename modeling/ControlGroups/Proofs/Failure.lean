/-! Computations that may fail: what follows from how a composed one ends. -/
namespace ControlGroups

variable {α β ε ε' : Type}

@[simp] theorem ok_bind (a : α) (f : α → Except ε β) : (Except.ok a >>= f) = f a := rfl

@[simp] theorem error_bind (e : ε) (f : α → Except ε β) :
    (Except.error e >>= f) = Except.error e := rfl

theorem bind_eq_ok_iff {x : Except ε α} {f : α → Except ε β} {b : β} :
    (x >>= f) = .ok b ↔ ∃ a, x = .ok a ∧ f a = .ok b := by
  cases x <;> simp

theorem bind_eq_error_iff {x : Except ε α} {f : α → Except ε β} {e : ε} :
    (x >>= f) = .error e ↔ x = .error e ∨ ∃ a, x = .ok a ∧ f a = .error e := by
  cases x <;> simp

theorem map_eq_ok_iff {x : Except ε α} {f : α → β} {b : β} :
    x.map f = .ok b ↔ ∃ a, x = .ok a ∧ f a = b := by
  cases x <;> simp [Except.map]

theorem map_eq_error_iff {x : Except ε α} {f : α → β} {e : ε} :
    x.map f = .error e ↔ x = .error e := by
  cases x <;> simp [Except.map]

@[simp] theorem mapError_ok (a : α) (f : ε → ε') : (Except.ok a).mapError f = .ok a := rfl

@[simp] theorem mapError_error (e : ε) (f : ε → ε') :
    (Except.error e : Except ε α).mapError f = .error (f e) := rfl

theorem mapError_eq_error_iff {x : Except ε α} {f : ε → ε'} {e : ε'} :
    x.mapError f = .error e ↔ ∃ cause, x = .error cause ∧ f cause = e := by
  cases x <;> simp

theorem mapError_eq_ok_iff {x : Except ε α} {f : ε → ε'} {a : α} :
    x.mapError f = .ok a ↔ x = .ok a := by
  cases x <;> simp

theorem eq_ok_of_toOption {x : Except ε α} {a : α} (h : x.toOption = some a) : x = .ok a := by
  cases x with
  | error e => cases h
  | ok b => exact congrArg Except.ok (Option.some.inj h)

theorem exists_ok_of_toOption_map {x : Except ε α} {f : α → β} {b : β}
    (h : x.toOption.map f = some b) : ∃ a, x = .ok a ∧ f a = b := by
  obtain ⟨a, hx, hf⟩ := Option.map_eq_some_iff.mp h
  exact ⟨a, eq_ok_of_toOption hx, hf⟩

theorem exists_of_foldlM_eq_error {step : β → α → Except ε β} {l : List α} {b : β} {e : ε}
    (h : l.foldlM step b = .error e) : ∃ a ∈ l, ∃ b, step b a = .error e := by
  induction l generalizing b with
  | nil => cases h
  | cons a l ih =>
    rw [List.foldlM_cons] at h
    rcases bind_eq_error_iff.mp h with ha | ⟨next, -, hl⟩
    · exact ⟨a, by simp, b, ha⟩
    · obtain ⟨a', hm, hs⟩ := ih hl
      exact ⟨a', by simp [hm], hs⟩

/-- Two computations in a row, each of which ends with the first of its failures, end with the first
failure of the one and then the other. -/
theorem bind_eq_error_iff_head? {x : Except ε α} {f : α → Except ε β} {first second : List ε}
    {e : ε} (hx : ∀ e, x = .error e ↔ first.head? = some e)
    (hf : ∀ a, x = .ok a → (f a = .error e ↔ second.head? = some e)) :
    (x >>= f) = .error e ↔ (first ++ second).head? = some e := by
  rw [List.head?_append]
  cases x with
  | error e' => simp [(hx e').mp rfl]
  | ok a =>
    have hn : first.head? = none := by
      rw [Option.eq_none_iff_forall_ne_some]
      intro e he
      cases (hx e).mpr he
    rw [ok_bind, hn, Option.none_or, hf a rfl]

/-- A fold whose steps fail alike in every state ends with the first failure of its elements. -/
theorem foldlM_eq_error_iff_head? {step : β → α → Except ε β} {failures : α → List ε}
    (h : ∀ b a e, step b a = .error e ↔ (failures a).head? = some e) {l : List α} {b : β} {e : ε} :
    l.foldlM step b = .error e ↔ (l.flatMap failures).head? = some e := by
  induction l generalizing b with
  | nil =>
    rw [List.foldlM_nil]
    constructor
    · intro he
      cases he
    · intro he
      cases he
  | cons a l ih =>
    rw [List.foldlM_cons, List.flatMap_cons]
    exact bind_eq_error_iff_head? (h b a) fun _ _ => ih

end ControlGroups
