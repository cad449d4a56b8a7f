import LandPattern.Value.Basic

/-!
# Local variables

A function call holds its variables in scopes, one for the parameters and one for every open block.
A name means the innermost variable that has it.
-/

namespace LandPattern

/-- The variables of one block; no name occurs twice. -/
abbrev Scope := List (String × Value)

namespace Scope

/-- The scope with a variable that has this value, new or not. -/
def declare (scope : Scope) (name : String) (v : Value) : Scope :=
  match scope with
  | [] => [(name, v)]
  | (other, w) :: rest =>
    if other = name then (name, v) :: rest else (other, w) :: declare rest name v

/-- The names of the variables. -/
def names (scope : Scope) : List String := scope.map Prod.fst

theorem lookup_declare (scope : Scope) (name other : String) (v : Value) :
    (scope.declare name v).lookup other = if other = name then some v else scope.lookup other := by
  induction scope with
  | nil =>
    by_cases same : other = name
    · simp [declare, same]
    · simp [declare, same, List.lookup_cons, beq_eq_false_iff_ne.2 same]
  | cons entry rest ih =>
    obtain ⟨key, w⟩ := entry
    by_cases here : key = name
    · subst here
      by_cases same : other = key
      · simp [declare, same]
      · simp [declare, same, List.lookup_cons, beq_eq_false_iff_ne.2 same]
    · by_cases found : other = key
      · subst found
        simp [declare, here]
      · simp [declare, here, List.lookup_cons, beq_eq_false_iff_ne.2 found, ih]

end Scope

/-- The variables of one function call, the innermost block first. -/
structure Locals where
  scopes : List Scope

namespace Locals

/-- The variables of a call that has only its parameters. -/
def ofParams (params : Scope) : Locals := ⟨[params]⟩

/-- Opens a block. -/
def push (locals : Locals) : Locals := ⟨[] :: locals.scopes⟩

/-- Closes the innermost block; the parameters are never dropped. -/
def pop (locals : Locals) : Locals :=
  match locals.scopes with
  | _ :: outer :: rest => ⟨outer :: rest⟩
  | _ => locals

/-- Declares a variable in the innermost block. -/
def declare (locals : Locals) (name : String) (v : Value) : Locals :=
  match locals.scopes with
  | [] => locals
  | inner :: outer => ⟨inner.declare name v :: outer⟩

/-- The value of a variable. -/
def get? (locals : Locals) (name : String) : Option Value :=
  locals.scopes.findSome? fun scope => scope.lookup name

/-- Writes to the innermost variable of this name. -/
def set (locals : Locals) (name : String) (v : Value) : Locals :=
  ⟨go locals.scopes⟩
where
  /-- Writes in the first scope that has the name. -/
  go : List Scope → List Scope
    | [] => []
    | scope :: outer =>
      if (scope.lookup name).isSome then scope.declare name v :: outer else scope :: go outer

@[simp] theorem pop_push (locals : Locals) (h : locals.scopes ≠ []) : locals.push.pop = locals := by
  obtain ⟨scopes⟩ := locals
  cases scopes with
  | nil => exact absurd rfl h
  | cons inner outer => rfl

end Locals

end LandPattern
