/-!
# Steps that can fail

A computation in `Except` is a row of steps, of which the first that fails decides. The lemmas here
take such a row apart.
-/

namespace PredicateExpr

variable {ε α β : Type}

/-- After a step that succeeds the next one is taken. -/
@[simp] theorem ok_bind (a : α) (f : α → Except ε β) : (Except.ok a >>= f) = f a := rfl

/-- After a step that fails nothing is done. -/
@[simp] theorem error_bind (e : ε) (f : α → Except ε β) :
    ((Except.error e : Except ε α) >>= f) = .error e := rfl

/-- Two steps succeed when both do. -/
theorem bind_eq_ok_iff {x : Except ε α} {f : α → Except ε β} {b : β} :
    (x >>= f) = .ok b ↔ ∃ a, x = .ok a ∧ f a = .ok b := by
  cases x with
  | error e => simp
  | ok a => simp

/-- Two steps fail when the first does, or else the second. -/
theorem bind_eq_error_iff {x : Except ε α} {f : α → Except ε β} {e : ε} :
    (x >>= f) = .error e ↔ x = .error e ∨ ∃ a, x = .ok a ∧ f a = .error e := by
  cases x with
  | error e => simp
  | ok a => simp

/-- A changed outcome is a success when the outcome itself is one. -/
theorem map_eq_ok_iff {x : Except ε α} {f : α → β} {b : β} :
    x.map f = .ok b ↔ ∃ a, x = .ok a ∧ f a = b := by
  cases x with
  | error e => simp [Except.map]
  | ok a => simp [Except.map]

/-- Two steps with their errors changed. -/
theorem mapError_bind {ε' : Type} (f : ε → ε') (x : Except ε α) (g : α → Except ε β) :
    (x >>= g).mapError f = x.mapError f >>= fun a => (g a).mapError f := by
  cases x <;> rfl

/-- A changed error is no success. -/
theorem mapError_eq_ok_iff {ε' : Type} {x : Except ε α} {f : ε → ε'} {a : α} :
    x.mapError f = .ok a ↔ x = .ok a := by
  constructor
  · intro h
    cases x with
    | error e => cases h
    | ok a => rw [Except.ok.inj h]
  · rintro rfl
    rfl

/-- An error is a changed one when there was an error before. -/
theorem mapError_eq_error_iff {ε' : Type} {x : Except ε α} {f : ε → ε'} {e' : ε'} :
    x.mapError f = .error e' ↔ ∃ e, x = .error e ∧ f e = e' := by
  constructor
  · intro h
    cases x with
    | error e => exact ⟨e, rfl, Except.error.inj h⟩
    | ok a => cases h
  · rintro ⟨e, rfl, rfl⟩
    rfl

/-- Outcomes that are the same once their results are forgotten are successes together. -/
theorem isOk_eq_of_map_eq {γ : Type} {x : Except ε α} {y : Except ε β} {f : α → γ}
    {g : β → γ} (h : x.map f = y.map g) : x.isOk = y.isOk := by
  cases x with
  | error e =>
    cases y with
    | error e' => rfl
    | ok b => cases h
  | ok a =>
    cases y with
    | error e => cases h
    | ok b => rfl

/-- A step in another monad, whose outcome is known, decides before anything is done there. -/
theorem run_liftM_bind {m : Type → Type} [Monad m] [LawfulMonad m] {ε α β : Type}
    (x : Except ε α) (f : α → ExceptT ε m β) :
    (liftM x >>= f).run =
      match x with
      | .error e => pure (.error e)
      | .ok a => (f a).run := by
  cases x with
  | error e => exact pure_bind _ _
  | ok a => exact pure_bind _ _

/-- A step in the monad below is taken there. -/
theorem run_below_bind {m : Type → Type} [Monad m] [LawfulMonad m] {ε α β : Type} (x : m α)
    (f : α → ExceptT ε m β) :
    ((liftM x : ExceptT ε m α) >>= f).run = x >>= fun a => (f a).run :=
  ExceptT.run_bind_lift x f

/-- A row of steps in the monad below is taken there, one after the other. -/
theorem run_forM_below_bind {m : Type → Type} [Monad m] [LawfulMonad m] {ε α β : Type}
    (f : α → m Unit) (as : List α) (g : Unit → ExceptT ε m β) :
    ((as.forM fun a => (liftM (f a) : ExceptT ε m Unit)) >>= g).run =
      as.forM f >>= fun u => (g u).run := by
  induction as with
  | nil =>
    rw [List.forM_eq_forM, List.forM_eq_forM, List.forM_nil, List.forM_nil, pure_bind, pure_bind]
  | cons a as ih =>
    rw [List.forM_eq_forM, List.forM_eq_forM] at ih ⊢
    rw [List.forM_cons, List.forM_cons, bind_assoc, bind_assoc, run_below_bind]
    simp only [ih]

end PredicateExpr
