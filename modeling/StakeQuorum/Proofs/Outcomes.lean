/-! # Outcomes

When a computation that may fail succeeds, and with which result.
-/

namespace StakeQuorum

variable {ε α β : Type} {x : Except ε α} {b : β}

theorem ite_error_eq_ok_iff {p : Prop} [Decidable p] {e : ε} {a : α} :
    (if p then .error e else x) = .ok a ↔ ¬ p ∧ x = .ok a := by
  by_cases hp : p <;> simp [hp]

theorem bind_eq_ok_iff {f : α → Except ε β} :
    (x >>= f) = .ok b ↔ ∃ a, x = .ok a ∧ f a = .ok b := by
  cases x <;> simp [bind, Except.bind]

theorem map_eq_ok_iff {f : α → β} : f <$> x = .ok b ↔ ∃ a, x = .ok a ∧ f a = b := by
  cases x <;> simp [Functor.map, Except.map]

section State

variable {σ : Type} {s s' : σ} {y : Except ε α × σ}

theorem ite_refused_eq_ok_iff {p : Prop} [Decidable p] {e : ε} {a : α} :
    (if p then (.error e, s) else y) = (.ok a, s') ↔ ¬ p ∧ y = (.ok a, s') := by
  by_cases hp : p <;> simp [hp]

theorem fst_isOk_iff_exists : y.1.isOk = true ↔ ∃ a s, y = (.ok a, s) := by
  rcases y with ⟨_ | _, s⟩ <;> simp [Except.isOk, Except.toBool]

theorem fst_isOk_eq_false_iff_exists : y.1.isOk = false ↔ ∃ e s, y = (.error e, s) := by
  rcases y with ⟨_ | _, s⟩ <;> simp [Except.isOk, Except.toBool]

/-- A failure leaves the state as it was. -/
def Spares (s : σ) (y : Except ε α × σ) : Prop :=
  ∀ ⦃e s'⦄, y = (.error e, s') → s' = s

theorem Spares.of_error (e : ε) : Spares s ((.error e, s) : Except ε α × σ) :=
  fun _ _ h => (Prod.mk.inj h).2.symm

theorem Spares.of_ok (a : α) (s' : σ) : Spares s ((.ok a, s') : Except ε α × σ) :=
  fun _ _ h => nomatch (Prod.mk.inj h).1

theorem Spares.of_status {status : Bool} {a : α} {e : ε} (h : status = false → s' = s) :
    Spares s (if status then .ok a else .error e, s') := by
  cases status with
  | false =>
    obtain rfl := h rfl
    exact .of_error e
  | true => exact .of_ok a s'

end State

end StakeQuorum
