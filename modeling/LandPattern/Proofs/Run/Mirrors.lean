import LandPattern.Proofs.Run.Endings
import LandPattern.Proofs.Script.PlacelessRules
import LandPattern.Run.Eval

/-!
# Evaluation without places

Places are passed along and put into faults, and nothing is decided by them. An evaluation of a
script without its places does what the evaluation of the script does: it ends with the same result
or with the same fault without its places, and leaves the same machine.
-/

namespace LandPattern

open Script (Argument AssignOp BinaryOp Block Branch Diagnostic Expr Function Item Name Program Span
  Stmt)

/-- The mark without its place. -/
def Fault.Mark.placeless (mark : Fault.Mark) : Fault.Mark := { mark with span := .nowhere }

/-- The frame without its place. -/
def Fault.Frame.placeless (frame : Fault.Frame) : Fault.Frame :=
  { frame with span := frame.span.map fun _ => .nowhere }

/-- The cause without its places. -/
def Fault.Cause.placeless : Fault.Cause → Fault.Cause
  | .problem diagnostic => .problem diagnostic.placeless
  | other => other

/-- The fault without its places, and without the source they refer to. -/
def Fault.placeless (fault : Fault) : Fault where
  cause := fault.cause.placeless
  marks := fault.marks.map Fault.Mark.placeless
  help := fault.help
  frames := fault.frames.map Fault.Frame.placeless
  site := fault.site.map fun _ => .nowhere
  related := fault.related.map Diagnostic.placeless
  source := none

/-- The step without its places. -/
def Step.placeless : Step → Step
  | .field name => .field name.bare
  | .index position _ => .index position .nowhere

/-- The place in a value without its places in the source. -/
def Place.placeless (place : Place) : Place :=
  ⟨place.root, .nowhere, place.steps.map Step.placeless⟩

/-- The same limits, and the functions without their places. -/
def Context.placeless (context : Context) : Context :=
  ⟨context.functions.map Function.bare, context.limits⟩

namespace Fault

/-- A fault that has no places. -/
abbrev Unplaced (fault : Fault) : Prop := fault.placeless = fault

theorem span?_placeless (fault : Fault) :
    fault.placeless.span? = fault.span?.map fun _ => .nowhere := by
  have hfind : (fault.marks.map Mark.placeless).find? Mark.primary =
      (fault.marks.find? Mark.primary).map Mark.placeless := by
    rw [List.find?_map]
    rfl
  simp only [span?, placeless, hfind]
  cases fault.marks.find? Mark.primary <;> rfl

/-- Without places, a fault is located nowhere in particular. -/
theorem placeless_locate (fault : Fault) (span : Span) :
    (fault.locate span).placeless = fault.placeless.locate .nowhere := by
  have hspan := fault.span?_placeless
  unfold locate mark
  cases hfound : fault.span? with
  | some s =>
    rw [hfound] at hspan
    rw [if_pos (by rfl), if_pos (by rw [hspan]; rfl)]
  | none =>
    rw [hfound] at hspan
    rw [if_neg (by simp), if_neg (by simp [hspan])]
    simp [placeless, Mark.placeless]

theorem placeless_leave (fault : Fault) (function : String) (callSite : Span) :
    (fault.leave function callSite).placeless = fault.placeless.leave function .nowhere := by
  have hspan := fault.span?_placeless
  simp only [leave, placeless, List.map_append, List.map_cons, List.map_nil, Option.map_some] at *
  simp only [hspan, Frame.placeless]
  cases fault.site <;> cases fault.span? <;> rfl

instance : Admits Unplaced where
  refusal _ := rfl
  eagerOperator _ := rfl

end Fault

/-- Without places, one act ends as the other one does, and it leaves the same state. What is left
of a result is told by `forget`. -/
def Act.Mirrors {ρ σ α : Type} (context bare : ρ) (forget : α → α) (act other : Act ρ σ α) : Prop :=
  ∀ state, other.outcome bare state =
    (((act.outcome context state).1.map forget).mapError Fault.placeless,
      (act.outcome context state).2)

namespace Act.Mirrors

variable {ρ σ α β : Type} {context bare : ρ} {forget : α → α} {act other : Act ρ σ α}

theorem pure (value : α) :
    Mirrors context bare forget (pure value : Act ρ σ α) (pure (forget value)) := fun _ => rfl

theorem fault (fault : Fault) :
    Mirrors context bare forget (throw fault : Act ρ σ α) (throw fault.placeless) := fun _ => rfl

/-- The second acts are entered with what is left of the first result. -/
theorem bind {after : β → β} {next more : α → Act ρ σ β} (h : Mirrors context bare forget act other)
    (hn : ∀ value, Mirrors context bare after (next value) (more (forget value))) :
    Mirrors context bare after (act >>= next) (other >>= more) := by
  intro state
  have hact := h state
  rcases hrun : act.outcome context state with ⟨result, middle⟩
  rw [hrun] at hact
  cases result with
  | ok value =>
    rw [outcome_bind_ok _ _ hrun, outcome_bind_ok _ _ hact]
    exact hn value middle
  | error fault => rw [outcome_bind_error _ _ hrun, outcome_bind_error _ _ hact]; rfl

theorem ofExcept (result : Except Refusal α) :
    Mirrors context bare id (Act.ofExcept result : Act ρ σ α) (Act.ofExcept result) := by
  cases result with
  | ok value => exact .pure value
  | error why => exact .fault (Fault.refusal why)

theorem modify (change : σ → σ) :
    Mirrors context bare id (modify change : Act ρ σ PUnit) (modify change) := fun _ => rfl

theorem get : Mirrors context bare id (get : Act ρ σ σ) get := fun _ => rfl

theorem mapFault {change changed : Fault → Fault}
    (hc : ∀ fault, (change fault).placeless = changed fault.placeless)
    (h : Mirrors context bare forget act other) :
    Mirrors context bare forget (Act.mapFault change act) (Act.mapFault changed other) := by
  intro state
  rw [outcome_mapFault, outcome_mapFault, h state]
  cases (act.outcome context state).1 with
  | ok value => rfl
  | error fault => exact congrArg (fun found => (Except.error found, _)) (hc fault).symm

theorem closing (close : σ → σ) (h : Mirrors context bare forget act other) :
    Mirrors context bare forget (Act.closing close act) (Act.closing close other) := by
  intro state
  rw [outcome_closing, outcome_closing, h state]

end Act.Mirrors

section Writing

variable {α : Type} {limits : Limits}

/-- What has no places in its faults is its own mirror. -/
theorem Metered.Made.mirrors {act : Metered α} (h : act.Made Fault.Unplaced) :
    Act.Mirrors limits limits id act act := by
  intro meter
  have hends := h.ends (fun _ => rfl) limits meter
  rcases hrun : act.outcome limits meter with ⟨result, after⟩
  rw [hrun] at hends
  cases result with
  | ok value => rfl
  | error fault =>
    have hbare : fault.placeless = fault := hends.2 fault rfl
    exact congrArg (fun found => (Except.error found, _)) hbare.symm

theorem mirrors_failAt (span : Span) (why : Refusal) :
    Act.Mirrors limits limits (id : α → α) (Value.failAt span why)
      (Value.failAt .nowhere why) := fun _ => by
  have hplace := (Fault.refusal why).placeless_locate span
  exact congrArg (fun found => (Except.error found, _)) hplace.symm

/-- Writing to a component mirrors itself, if what is written does. -/
theorem mirrors_update (v : Value) (steps : List Step) {write : Value → Metered (Value × α)}
    (h : ∀ old, Act.Mirrors limits limits id (write old) (write old)) :
    Act.Mirrors limits limits id (v.update steps write)
      (v.update (steps.map Step.placeless) write) := by
  induction steps generalizing v with
  | nil => exact h v
  | cons step rest ih =>
    cases step with
    | field name =>
      simp only [List.map_cons, Step.placeless, Value.update, Script.Name.bare]
      split
      · split
        · exact mirrors_failAt _ _
        · refine .bind (Metered.Made.value _).mirrors fun old => .bind (ih old) fun made => ?_
          dsimp only [id]
          split
          · exact .pure _
          · exact mirrors_failAt _ _
      · exact mirrors_failAt _ _
    | index position span =>
      simp only [List.map_cons, Step.placeless, Value.update]
      split
      · split
        · exact mirrors_failAt _ _
        · split
          · exact mirrors_failAt _ _
          · exact .bind (ih _) fun made => .bind Metered.Made.freshStamp.mirrors fun _ => .pure _
      · exact mirrors_failAt _ _

theorem mirrors_updateWithin (v : Value) (steps : List Step)
    {write : Value → Metered (Value × α)}
    (h : ∀ old, Act.Mirrors limits limits id (write old) (write old)) :
    Act.Mirrors limits limits id (v.updateWithin steps write)
      (v.updateWithin (steps.map Step.placeless) write) :=
  .bind (mirrors_update v steps h) fun _ => .bind (Metered.Made.checkValue _).mirrors fun _ =>
    .pure _

end Writing

namespace Evaluation

variable {context : Context} {α β : Type} {forget : α → α} {act other : Evaluation α}

/-- An evaluation and the one without places. -/
abbrev Mirrors (context : Context) (forget : α → α) (act other : Evaluation α) : Prop :=
  Act.Mirrors context context.placeless forget act other

theorem mirrors_ofMetered {act other : Metered α}
    (h : Act.Mirrors context.limits context.limits id act other) :
    Mirrors context id (ofMetered act) (ofMetered other) := by
  intro machine
  have hact := h machine.meter
  simp only [ofMetered, Act.outcome_ofOutcome]
  rw [show context.placeless.limits = context.limits from rfl, hact]

theorem mirrors_counted (h : Mirrors context forget act other) :
    Mirrors context forget (counted act) (counted other) :=
  .bind (.modify _) fun _ => .closing _ h

theorem mirrors_locating (span : Span) (h : Mirrors context forget act other) :
    Mirrors context forget (locating span act) (locating .nowhere other) :=
  .mapFault (fun fault => fault.placeless_locate span) h

theorem mirrors_noting {act other : Evaluation Value} (h : Mirrors context id act other) :
    Mirrors context id (noting act) (noting other) :=
  .bind h fun v => .bind (.modify _) fun _ => .pure v

theorem mirrors_refuseAt (span : Span) (why : Refusal) :
    Mirrors context forget (refuseAt span why) (refuseAt .nowhere why) := by
  have hplace := (Fault.refusal why).placeless_locate span
  have hfault : Mirrors context forget (throw ((Fault.refusal why).locate span))
      (throw ((Fault.refusal why).locate span).placeless) := .fault _
  rw [hplace] at hfault
  exact hfault

/-- The function without its places has the same name. -/
theorem function?_placeless (context : Context) (name : String) :
    context.placeless.function? name = (context.function? name).map Function.bare := by
  simp only [Context.function?, Context.placeless]
  rw [List.find?_map]
  rfl

theorem mirrors_consult
    {look : (String → Option Function) → Scope → Option Locals → Except Refusal α}
    (h : ∀ globals locals, look context.placeless.function? globals locals =
      (look context.function? globals locals).map forget) :
    Mirrors context forget (consult look) (consult look) := by
  intro machine
  have hlook : ∀ found : Except Refusal α,
      Mirrors context forget (Act.ofExcept found) (Act.ofExcept (found.map forget)) := by
    intro found
    cases found with
    | ok value => exact .pure value
    | error why => exact .fault (Fault.refusal why)
  have hfound := hlook (look context.function? machine.globals machine.frames.head?) machine
  rw [← h] at hfound
  exact hfound

/-- What is looked up is the same, when it does not depend on places. -/
theorem mirrors_consult_same
    {look : (String → Option Function) → Scope → Option Locals → Except Refusal α}
    (h : ∀ globals locals, look context.placeless.function? globals locals =
      look context.function? globals locals) :
    Mirrors context id (consult look) (consult look) := by
  refine mirrors_consult fun globals locals => ?_
  rw [h]
  cases look context.function? globals locals <;> rfl

theorem mirrors_modifyLocals (change : Locals → Locals) :
    Mirrors context id (modifyLocals change) (modifyLocals change) := by
  refine .bind .get fun machine => ?_
  dsimp only [id]
  split
  · exact .fault (Fault.of .noActiveFunction)
  · exact .modify _

theorem mirrors_inBlock (h : Mirrors context forget act other) :
    Mirrors context forget (inBlock act) (inBlock other) :=
  .bind (mirrors_modifyLocals _) fun _ => .closing _ h

theorem mirrors_inCall (locals : Locals) (h : Mirrors context forget act other) :
    Mirrors context forget (inCall locals act) (inCall locals other) :=
  .bind (.modify _) fun _ => .closing _ h

theorem mirrors_truth (what : String) (span : Span) (v : Value) :
    Mirrors context id (truth what span v) (truth what .nowhere v) := by
  cases v with
  | bool b => exact .pure b
  | _ => exact mirrors_refuseAt _ _

theorem mirrors_position (span : Span) (v : Value) :
    Mirrors context id (position span v) (position .nowhere v) := by
  cases v with
  | int n => exact .pure n
  | _ => exact mirrors_refuseAt _ _

theorem mirrors_iterated (span : Span) (v : Value) :
    Mirrors context id (iterated span v) (iterated .nowhere v) := by
  unfold iterated
  split
  · exact .pure _
  · exact mirrors_refuseAt _ _

theorem mirrors_collected (length : Nat) {items others : Evaluation (List Value)}
    (h : Mirrors context id items others) :
    Mirrors context id (collected length items) (collected length others) := by
  refine .bind (mirrors_ofMetered (Metered.Made.checkLength _).mirrors) fun _ => .bind h fun values =>
    mirrors_ofMetered (Metered.Made.mirrors ?_)
  exact .bind (.sequence _) fun s => .bind (.checkSequence s) fun _ => .pure s

theorem mirrors_rounds (each : Rounds) {body others : Value → Evaluation Flow}
    (h : ∀ item, Mirrors context id (body item) (others item)) (items : List Value) :
    Mirrors context id (rounds each body items) (rounds each others items) := by
  induction items with
  | nil => exact .pure _
  | cons item rest ih =>
    refine .bind (mirrors_ofMetered (.modify _)) fun _ => .bind (h item) fun flow => ?_
    cases flow with
    | giveBack v => exact .pure _
    | next => exact ih

theorem mirrors_lookup (name : String) : Mirrors context id (lookup name) (lookup name) := by
  refine mirrors_consult_same fun globals locals => ?_
  rw [function?_placeless, Option.isSome_map]

theorem mirrors_updatePlace (place : Place) {write : Value → Metered (Value × α)}
    (hw : ∀ old, Act.Mirrors context.limits context.limits id (write old) (write old)) :
    Mirrors context id (updatePlace place write) (updatePlace place.placeless write) := by
  refine .bind (mirrors_consult_same fun _ _ => rfl) fun found => ?_
  cases found with
  | none =>
    refine .bind (mirrors_consult_same fun globals locals => ?_) fun why => mirrors_refuseAt _ why
    rw [function?_placeless, Option.isSome_map]
  | some root =>
    exact .bind (mirrors_ofMetered (mirrors_updateWithin root place.steps hw)) fun made =>
      .bind (mirrors_modifyLocals _) fun _ => .pure _

theorem mirrors_store (place : Place) (op : AssignOp) (v : Value) :
    Mirrors context id (store place op v) (store place.placeless op v) :=
  mirrors_updatePlace place fun old =>
    .bind (Metered.Made.assigned op old v).mirrors fun _ => .pure _

end Evaluation

end LandPattern
