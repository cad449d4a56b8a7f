import LandPattern.Fault.Basic

/-!
# Acts

An act reads something fixed, changes a state, and ends with a result or a fault. The state outlives
the fault. Acts are described by their outcomes: what a sequence of acts does is read off what each
of them does.
-/

namespace LandPattern

/-- An act that reads a `ρ` and changes a `σ`. -/
abbrev Act (ρ σ : Type) := ReaderT ρ (ExceptT Fault (StateM σ))

namespace Act

variable {ρ σ α β : Type}

/-- Runs an act from a state: its result or its fault, and the state afterwards. -/
def outcome (act : Act ρ σ α) (context : ρ) (state : σ) : Except Fault α × σ :=
  (act.run context).run.run state

/-- The act with this outcome. -/
def ofOutcome (outcome : ρ → σ → Except Fault α × σ) : Act ρ σ α :=
  fun context => ExceptT.mk fun state => outcome context state

/-- The result, or the end with the refusal. -/
def ofExcept : Except Refusal α → Act ρ σ α
  | .ok value => pure value
  | .error why => throw (Fault.refusal why)

/-- Changes the fault of an act, if it has one. -/
def mapFault (change : Fault → Fault) (act : Act ρ σ α) : Act ρ σ α :=
  ofOutcome fun context state =>
    match act.outcome context state with
    | (.ok value, after) => (.ok value, after)
    | (.error fault, after) => (.error (change fault), after)

/-- Changes the state after an act, also after a fault. -/
def closing (close : σ → σ) (act : Act ρ σ α) : Act ρ σ α :=
  ofOutcome fun context state =>
    let (result, after) := act.outcome context state
    (result, close after)

variable (context : ρ) (state : σ)

@[simp] theorem outcome_ofOutcome (f : ρ → σ → Except Fault α × σ) :
    (ofOutcome f).outcome context state = f context state := rfl

@[simp] theorem outcome_pure (value : α) :
    (pure value : Act ρ σ α).outcome context state = (.ok value, state) := rfl

@[simp] theorem outcome_throw (fault : Fault) :
    (throw fault : Act ρ σ α).outcome context state = (.error fault, state) := rfl

@[simp] theorem outcome_read : (read : Act ρ σ ρ).outcome context state = (.ok context, state) := rfl

@[simp] theorem outcome_get : (get : Act ρ σ σ).outcome context state = (.ok state, state) := rfl

@[simp] theorem outcome_set (new : σ) :
    (set new : Act ρ σ PUnit).outcome context state = (.ok ⟨⟩, new) := rfl

@[simp] theorem outcome_modify (change : σ → σ) :
    (modify change : Act ρ σ PUnit).outcome context state = (.ok ⟨⟩, change state) := rfl

@[simp] theorem outcome_modifyGet (change : σ → α × σ) :
    (modifyGet change : Act ρ σ α).outcome context state =
      (.ok (change state).1, (change state).2) := rfl

/-- The second of two acts goes on where the first one ended, unless that ended with a fault. -/
theorem outcome_bind (act : Act ρ σ α) (next : α → Act ρ σ β) :
    (act >>= next).outcome context state =
      match act.outcome context state with
      | (.ok value, after) => (next value).outcome context after
      | (.error fault, after) => (.error fault, after) := by
  simp only [outcome, ReaderT.run_bind, ExceptT.run_bind, StateT.run_bind]
  rcases hact : ((act.run context).run.run state) with ⟨result, after⟩
  cases result with
  | ok value => rfl
  | error fault => rfl

theorem outcome_bind_ok {act : Act ρ σ α} {value : α} {after : σ}
    (h : act.outcome context state = (.ok value, after)) (next : α → Act ρ σ β) :
    (act >>= next).outcome context state = (next value).outcome context after := by
  rw [outcome_bind, h]

theorem outcome_bind_error {act : Act ρ σ α} {fault : Fault} {after : σ}
    (h : act.outcome context state = (.error fault, after)) (next : α → Act ρ σ β) :
    (act >>= next).outcome context state = (.error fault, after) := by
  rw [outcome_bind, h]

@[simp] theorem outcome_mapFault (change : Fault → Fault) (act : Act ρ σ α) :
    (mapFault change act).outcome context state =
      ((act.outcome context state).1.mapError change, (act.outcome context state).2) := by
  rw [mapFault, outcome_ofOutcome]
  rcases act.outcome context state with ⟨result, after⟩
  cases result with
  | ok value => rfl
  | error fault => rfl

@[simp] theorem outcome_closing (close : σ → σ) (act : Act ρ σ α) :
    (closing close act).outcome context state =
      ((act.outcome context state).1, close (act.outcome context state).2) := rfl

end Act

/-- What ends without a refusal has gone through its first step. -/
theorem exists_of_bind_ok {ε α β : Type} {first : Except ε α} {next : α → Except ε β} {result : β}
    (h : (first >>= next) = .ok result) : ∃ value, first = .ok value ∧ next value = .ok result := by
  cases first with
  | ok value => exact ⟨value, rfl, h⟩
  | error why => cases h

theorem exists_of_map_ok {ε α β : Type} {first : Except ε α} {change : α → β} {result : β}
    (h : (change <$> first) = .ok result) : ∃ value, first = .ok value ∧ change value = result := by
  cases first with
  | ok value => exact ⟨value, rfl, Except.ok.inj h⟩
  | error why => cases h

end LandPattern
