import LandPattern.Run.Machine

/-!
# What a machine holds

The values of constants, of variables and of expressions at the moments of a run, and what a step has
to keep so that all of them have a property.
-/

namespace LandPattern

/-- All values of a scope have a property. -/
def Scope.All (good : Value → Prop) (scope : Scope) : Prop := ∀ entry ∈ scope, good entry.2

/-- All values of a call's variables have a property. -/
def Locals.All (good : Value → Prop) (locals : Locals) : Prop :=
  ∀ scope ∈ locals.scopes, Scope.All good scope

/-- The values of a call's variables. -/
def Locals.values (locals : Locals) : List Value := locals.scopes.flatten.map Prod.snd

/-- The values that a moment shows: of constants, of variables, and of the expression that ends. -/
def Moment.values (moment : Moment) : List Value :=
  moment.globals.map Prod.snd ++ moment.frames.flatMap Locals.values ++ moment.value.toList

/-- All values that a moment shows have a property. -/
structure Moment.All (good : Value → Prop) (moment : Moment) : Prop where
  globals : Scope.All good moment.globals
  frames : ∀ locals ∈ moment.frames, locals.All good
  value : ∀ v, moment.value = some v → good v

/-- All values have a property now, and had it at every moment so far. -/
structure Machine.All (good : Value → Prop) (machine : Machine) : Prop where
  now : (machine.moment none).All good
  history : ∀ moment, machine.history moment → moment.All good

section

variable {good : Value → Prop}

theorem Moment.All.mem_values {moment : Moment} (h : moment.All good) :
    ∀ v ∈ moment.values, good v := by
  intro v hv
  simp only [Moment.values, List.mem_append, List.mem_map, List.mem_flatMap, Option.mem_toList] at hv
  rcases hv with (⟨entry, hentry, rfl⟩ | ⟨locals, hlocals, hin⟩) | hvalue
  · exact h.globals entry hentry
  · simp only [Locals.values, List.mem_map, List.mem_flatten] at hin
    obtain ⟨entry, ⟨scope, hscope, hentry⟩, rfl⟩ := hin
    exact h.frames locals hlocals scope hscope entry hentry
  · exact h.value v hvalue

theorem Scope.All.declare {scope : Scope} {name : String} {v : Value} (h : scope.All good)
    (hv : good v) : (scope.declare name v).All good := by
  induction scope with
  | nil =>
    intro entry hentry
    rw [List.mem_singleton.1 hentry]
    exact hv
  | cons first rest ih =>
    obtain ⟨other, w⟩ := first
    have hrest : Scope.All good rest := fun entry hentry => h entry (List.mem_cons_of_mem _ hentry)
    unfold Scope.declare
    intro entry hentry
    split at hentry
    · rcases List.mem_cons.1 hentry with rfl | htail
      · exact hv
      · exact hrest entry htail
    · rcases List.mem_cons.1 hentry with rfl | htail
      · exact h (other, w) List.mem_cons_self
      · exact ih hrest entry htail

theorem Scope.All.lookup {scope : Scope} {name : String} {v : Value} (h : scope.All good)
    (hv : scope.lookup name = some v) : good v := by
  obtain ⟨before, after, heq, -⟩ := List.lookup_eq_some_iff.1 hv
  exact h (name, v) (by rw [heq]; exact List.mem_append_right _ List.mem_cons_self)

namespace Locals

variable {locals : Locals}

theorem All.ofParams {params : Scope} (h : params.All good) : (ofParams params).All good := by
  intro scope hscope
  rw [List.mem_singleton.1 hscope]
  exact h

theorem All.push (h : locals.All good) : locals.push.All good := by
  intro scope hscope
  rcases List.mem_cons.1 hscope with rfl | hold
  · exact fun _ hentry => absurd hentry List.not_mem_nil
  · exact h scope hold

theorem All.pop (h : locals.All good) : locals.pop.All good := by
  unfold Locals.pop
  split
  · rename_i inner outer rest heq
    intro scope hscope
    exact h scope (by rw [heq]; exact List.mem_cons_of_mem _ hscope)
  · exact h

theorem All.declare {name : String} {v : Value} (h : locals.All good) (hv : good v) :
    (locals.declare name v).All good := by
  unfold Locals.declare
  split
  · exact h
  · rename_i inner outer heq
    intro scope hscope
    rcases List.mem_cons.1 hscope with rfl | hold
    · exact Scope.All.declare (h inner (by rw [heq]; exact List.mem_cons_self)) hv
    · exact h scope (by rw [heq]; exact List.mem_cons_of_mem _ hold)

theorem All.set {name : String} {v : Value} (h : locals.All good) (hv : good v) :
    (locals.set name v).All good := by
  obtain ⟨scopes⟩ := locals
  change ∀ scope ∈ scopes, Scope.All good scope at h
  change ∀ scope ∈ set.go name v scopes, Scope.All good scope
  induction scopes with
  | nil => exact h
  | cons first outer ih =>
    have houter := ih fun scope hscope => h scope (List.mem_cons_of_mem _ hscope)
    unfold set.go
    intro scope hscope
    split at hscope
    · rcases List.mem_cons.1 hscope with rfl | hold
      · exact Scope.All.declare (h first List.mem_cons_self) hv
      · exact h scope (List.mem_cons_of_mem _ hold)
    · rcases List.mem_cons.1 hscope with rfl | hold
      · exact h _ List.mem_cons_self
      · exact houter scope hold

theorem All.get? {name : String} {v : Value} (h : locals.All good)
    (hv : locals.get? name = some v) : good v := by
  obtain ⟨scope, hscope, hlookup⟩ := List.exists_of_findSome?_eq_some hv
  exact Scope.All.lookup (h scope hscope) hlookup

end Locals

namespace Machine

variable {machine : Machine}

theorem All.start : Machine.start.All good :=
  ⟨⟨fun _ h => absurd h List.not_mem_nil, fun _ h => absurd h List.not_mem_nil,
    fun _ h => (by cases h)⟩, fun _ h => h.elim⟩

theorem All.withMeter (h : machine.All good) (meter : Meter) : (machine.withMeter meter).All good :=
  ⟨⟨h.now.globals, h.now.frames, fun _ heq => (by cases heq)⟩, h.history⟩

/-- A moment that is noted shows what stands there now, and one more value. -/
theorem All.noted {value : Option Value} (h : machine.All good)
    (hv : ∀ v, value = some v → good v) : (machine.noted value).All good := by
  refine ⟨⟨h.now.globals, h.now.frames, fun _ heq => (by cases heq)⟩, fun moment hmoment => ?_⟩
  rcases hmoment with rfl | hold
  · exact ⟨h.now.globals, h.now.frames, hv⟩
  · exact h.history moment hold

theorem All.withFrames {frames : List Locals} (h : machine.All good)
    (hf : ∀ locals ∈ frames, locals.All good) : (machine.withFrames frames).All good := by
  have hnew : All good { machine with frames := frames } :=
    ⟨⟨h.now.globals, hf, fun _ heq => (by cases heq)⟩, h.history⟩
  exact hnew.noted fun _ heq => (by cases heq)

theorem All.withGlobals {globals : Scope} (h : machine.All good) (hg : globals.All good) :
    (machine.withGlobals globals).All good := by
  have hnew : All good { machine with globals := globals } :=
    ⟨⟨hg, h.now.frames, fun _ heq => (by cases heq)⟩, h.history⟩
  exact hnew.noted fun _ heq => (by cases heq)

end Machine

end

end LandPattern
