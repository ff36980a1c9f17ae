import Mathlib.Data.List.Forall2

/-!
# Successes and failures

When computations that can fail are put together, they succeed exactly if each of them does, and
fail where one of them does. A `do` block falls apart into its steps by these equivalences.
-/

namespace Except

variable {ε ε' α β : Type}

/-- A computation in two steps succeeds if both steps do. -/
theorem bind_eq_ok_iff {x : Except ε α} {f : α → Except ε β} {b : β} :
    (x >>= f) = .ok b ↔ ∃ a, x = .ok a ∧ f a = .ok b := by
  cases x <;> simp [bind, Except.bind]

/-- A computation in two steps fails where one of them does. -/
theorem bind_eq_error_iff {x : Except ε α} {f : α → Except ε β} {e : ε} :
    (x >>= f) = .error e ↔ x = .error e ∨ ∃ a, x = .ok a ∧ f a = .error e := by
  cases x <;> simp [bind, Except.bind]

/-- What does not fail succeeds. -/
theorem exists_eq_ok_iff {x : Except ε α} : (∃ a, x = .ok a) ↔ ∀ e, x ≠ .error e := by
  cases x <;> simp

/-- A computation that goes through a list fails at one of its elements. -/
theorem exists_of_foldlM_eq_error {f : β → α → Except ε β} {b : β} {as : List α} {e : ε}
    (h : as.foldlM f b = .error e) : ∃ b', ∃ a ∈ as, f b' a = .error e := by
  induction as generalizing b with
  | nil => cases h
  | cons a as ih =>
    rw [List.foldlM_cons] at h
    rcases bind_eq_error_iff.1 h with h | ⟨b', -, h⟩
    · exact ⟨b, a, List.mem_cons_self, h⟩
    · obtain ⟨b'', a', ha', h⟩ := ih h
      exact ⟨b'', a', List.mem_cons_of_mem _ ha', h⟩

/-- A computation that goes through a list fails if it fails at one of its elements. -/
theorem exists_foldlM_eq_error {f : β → α → Except ε β} {as : List α} {a : α} {e : ε} (ha : a ∈ as)
    (h : ∀ b, f b a = .error e) (b : β) : ∃ e', as.foldlM f b = .error e' := by
  induction as generalizing b with
  | nil => cases ha
  | cons a' as ih =>
    rw [List.foldlM_cons]
    rcases List.mem_cons.1 ha with rfl | ha
    · exact ⟨e, bind_eq_error_iff.2 (.inl (h b))⟩
    · cases hfirst : f b a' with
      | error e' => exact ⟨e', rfl⟩
      | ok b' => exact ih ha b'

/-- The results of the elements of a list, one by one. -/
theorem mapM_eq_ok_of_forall₂ {f : α → Except ε β} {as : List α} {bs : List β}
    (h : List.Forall₂ (fun a b => f a = .ok b) as bs) : as.mapM f = .ok bs := by
  induction h with
  | nil => rfl
  | cons hfirst _ ih =>
    rw [List.mapM_cons, hfirst, ih]
    rfl

/-- The elements of a list do not all have a result if one of them fails. -/
theorem exists_mapM_eq_error {f : α → Except ε β} {as : List α} {a : α} {e : ε} (ha : a ∈ as)
    (h : f a = .error e) : ∃ e', as.mapM f = .error e' := by
  induction as with
  | nil => cases ha
  | cons a' as ih =>
    rw [List.mapM_cons]
    rcases List.mem_cons.1 ha with rfl | ha
    · exact ⟨e, bind_eq_error_iff.2 (.inl h)⟩
    · obtain ⟨e', hrest⟩ := ih ha
      cases hfirst : f a' with
      | error e' => exact ⟨e', rfl⟩
      | ok b => exact ⟨e', bind_eq_error_iff.2 (.inr ⟨b, rfl, bind_eq_error_iff.2 (.inl hrest)⟩)⟩

theorem pure_eq_ok_iff {a b : α} : (pure a : Except ε α) = .ok b ↔ a = b := by
  simp [pure, Except.pure]

theorem mapError_eq_ok_iff {x : Except ε α} {f : ε → ε'} {a : α} :
    x.mapError f = .ok a ↔ x = .ok a := by
  cases x with
  | ok b =>
    change (Except.ok b : Except ε' α) = .ok a ↔ _
    rw [Except.ok.injEq, Except.ok.injEq]
  | error e => exact ⟨nofun, nofun⟩

theorem mapError_eq_error_iff {x : Except ε α} {f : ε → ε'} {e' : ε'} :
    x.mapError f = .error e' ↔ ∃ e, x = .error e ∧ f e = e' := by
  cases x with
  | ok a => exact ⟨nofun, nofun⟩
  | error e =>
    change (Except.error (f e) : Except ε' α) = .error e' ↔ _
    simp

end Except
