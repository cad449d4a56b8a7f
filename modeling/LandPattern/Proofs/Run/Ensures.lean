import LandPattern.Run.Program

/-!
# What acts ensure

What holds of a state before an act and after it, whether it ends with a result or with a fault, and
what its result is like. The rules follow the ways in which acts are put together, so that what a
long act ensures is read off its parts.
-/

namespace LandPattern

section

variable {ρ σ α β : Type}

/-- From every fine state the act leads to a fine state, also when it ends with a fault, and its
result is as promised. -/
def Act.Ensures (context : ρ) (fine : σ → Prop) (act : Act ρ σ α) (promise : α → Prop) : Prop :=
  ∀ state, fine state → fine (act.outcome context state).2 ∧
    ∀ value, (act.outcome context state).1 = .ok value → promise value

namespace Act.Ensures

variable {context : ρ} {fine : σ → Prop} {promise other : α → Prop} {act : Act ρ σ α}

theorem pure {value : α} (h : promise value) : Ensures context fine (pure value) promise :=
  fun _ hstate => ⟨hstate, fun _ heq => (by cases heq; exact h)⟩

theorem fault (fault : Fault) : Ensures context fine (throw fault : Act ρ σ α) promise :=
  fun _ hstate => ⟨hstate, fun _ heq => (by cases heq)⟩

/-- The second act is entered with what the first one promises. -/
theorem bind {after : β → Prop} {next : α → Act ρ σ β} (h : Ensures context fine act promise)
    (hn : ∀ value, promise value → Ensures context fine (next value) after) :
    Ensures context fine (act >>= next) after := by
  intro state hstate
  have hact := h state hstate
  rcases hrun : act.outcome context state with ⟨result, middle⟩
  rw [hrun] at hact
  cases result with
  | ok value =>
    rw [outcome_bind_ok context state hrun]
    exact hn value (hact.2 value rfl) middle hact.1
  | error fault =>
    rw [outcome_bind_error context state hrun]
    exact ⟨hact.1, fun _ heq => (by cases heq)⟩

theorem weaken (h : Ensures context fine act promise) (hw : ∀ value, promise value → other value) :
    Ensures context fine act other :=
  fun state hstate => ⟨(h state hstate).1, fun value heq => hw value ((h state hstate).2 value heq)⟩

theorem ofExcept {result : Except Refusal α} (h : ∀ value, result = .ok value → promise value) :
    Ensures context fine (Act.ofExcept result) promise := by
  cases result with
  | ok value => exact .pure (h value rfl)
  | error why => exact .fault _

theorem ite {no : Act ρ σ α} {condition : Prop} [Decidable condition]
    (h : condition → Ensures context fine act promise)
    (hn : ¬ condition → Ensures context fine no promise) :
    Ensures context fine (if condition then act else no) promise := by
  split
  · exact h ‹_›
  · exact hn ‹_›

theorem read : Ensures context fine (read : Act ρ σ ρ) (· = context) :=
  fun _ hstate => ⟨hstate, fun _ heq => (by cases heq; rfl)⟩

theorem get : Ensures context fine (get : Act ρ σ σ) fine :=
  fun _ hstate => ⟨hstate, fun _ heq => (by cases heq; exact hstate)⟩

theorem modify {change : σ → σ} (h : ∀ state, fine state → fine (change state)) :
    Ensures context fine (modify change : Act ρ σ PUnit) fun _ => True :=
  fun state hstate => ⟨h state hstate, fun _ _ => trivial⟩

theorem mapFault {change : Fault → Fault} (h : Ensures context fine act promise) :
    Ensures context fine (Act.mapFault change act) promise := by
  intro state hstate
  have hact := h state hstate
  rw [outcome_mapFault]
  refine ⟨hact.1, fun value heq => hact.2 value ?_⟩
  cases hrun : (act.outcome context state).1 with
  | ok found =>
    rw [hrun] at heq
    exact heq
  | error found =>
    rw [hrun] at heq
    cases heq

theorem closing {close : σ → σ} (hc : ∀ state, fine state → fine (close state))
    (h : Ensures context fine act promise) :
    Ensures context fine (Act.closing close act) promise := by
  intro state hstate
  have hact := h state hstate
  rw [outcome_closing]
  exact ⟨hc _ hact.1, hact.2⟩

end Act.Ensures

end

namespace Metered

variable {α β : Type} {limits : Limits} {promise : α → Prop}

/-- Under these limits a result is as promised, whatever the meter stands at. -/
abbrev Yields (limits : Limits) (act : Metered α) (promise : α → Prop) : Prop :=
  Act.Ensures limits (fun _ => True) act promise

/-- Every act has some result, if it has one. -/
theorem yields_any (act : Metered α) : Yields limits act fun _ => True :=
  fun _ _ => ⟨trivial, fun _ _ => trivial⟩

/-- An act whose result does not matter. -/
theorem yields_seq {act : Metered β} {next : β → Metered α}
    (h : ∀ value, Yields limits (next value) promise) : Yields limits (act >>= next) promise :=
  .bind (yields_any act) fun value _ => h value

theorem yields_refuse (why : Refusal) : Yields limits (refuse why : Metered α) promise := .fault _

/-- What passes a check of its size keeps to the limit. -/
theorem yields_check (bound : Limits → Nat) (size : Nat) (why : Nat → Refusal) :
    Yields limits (do
      let limit := bound (← read)
      if limit < size then refuse (why limit) : Metered Unit) fun _ => size ≤ bound limits := by
  refine .bind .read fun found hfound => ?_
  subst hfound
  exact .ite (fun _ => yields_refuse _) fun hle => .pure (Nat.le_of_not_lt hle)

theorem yields_checkLength (length : Nat) :
    Yields limits (checkLength length) fun _ => length ≤ limits.collection :=
  yields_check Limits.collection length fun limit => .tooLong length limit

theorem yields_checkRepetition (length times : Nat) :
    Yields limits (checkRepetition length times) fun _ => length * times ≤ limits.collection :=
  yields_check Limits.collection (length * times) fun limit =>
    .tooLong (saturatingProduct length times) limit

theorem yields_checkDepth (depth : Nat) :
    Yields limits (checkDepth depth) fun _ => depth ≤ limits.valueDepth :=
  yields_check Limits.valueDepth depth fun limit => .tooDeep limit

theorem yields_checkSequence (s : Sequence Value) :
    Yields limits (checkSequence s) fun _ =>
      s.length ≤ limits.collection ∧ s.depth ≤ limits.valueDepth :=
  .bind (yields_checkLength s.length) fun _ hlength =>
    (yields_checkDepth s.depth).weaken fun _ hdepth => ⟨hlength, hdepth⟩

/-- A new sequence differs from others of the same items in its stamp alone. -/
theorem yields_sequence (items : List Value) :
    Yields limits (sequence items) fun s => ∃ stamp, s = Sequence.ofItems items stamp :=
  .bind (yields_any freshStamp) fun stamp _ => .pure ⟨stamp, rfl⟩

theorem yields_list (items : List Value) :
    Yields limits (list items) fun v => ∃ stamp, v = .list (Sequence.ofItems items stamp) :=
  .bind (yields_sequence items) fun _ hs => .pure (hs.elim fun stamp heq => ⟨stamp, by rw [heq]⟩)

end Metered

namespace Evaluation

variable {α : Type} {context : Context} {fine : Machine → Prop} {promise : α → Prop}

/-- What is charged changes the meter alone. -/
theorem ensures_ofMetered {act : Metered α}
    (hm : ∀ machine meter, fine machine → fine (machine.withMeter meter))
    (h : Metered.Yields context.limits act promise) :
    Act.Ensures context fine (ofMetered act) promise := by
  intro machine hmachine
  have hact := h machine.meter trivial
  exact ⟨hm machine _ hmachine, hact.2⟩

theorem ensures_counted {act : Evaluation α}
    (hm : ∀ machine meter, fine machine → fine (machine.withMeter meter))
    (h : Act.Ensures context fine act promise) :
    Act.Ensures context fine (counted act) promise :=
  .bind (.modify fun machine hmachine => hm machine _ hmachine) fun _ _ =>
    .closing (fun machine hmachine => hm machine _ hmachine) h

/-- What is looked up is found in a fine state. -/
theorem ensures_consult
    {look : (String → Option Script.Function) → Scope → Option Locals → Except Refusal α}
    (h : ∀ machine, fine machine → ∀ value,
      look context.function? machine.globals machine.frames.head? = .ok value → promise value) :
    Act.Ensures context fine (consult look) promise := by
  intro machine hmachine
  have hlook : Act.Ensures context fine
      (Act.ofExcept (look context.function? machine.globals machine.frames.head?)) promise :=
    .ofExcept (h machine hmachine)
  exact hlook machine hmachine

/-- A function that is looked up is one of the script. -/
theorem ensures_function? (name : String) :
    Act.Ensures context fine (consult fun function? _ _ => .ok (function? name))
      fun found => ∀ function, found = some function → function ∈ context.functions := by
  refine ensures_consult fun _ _ found heq function hfunction => ?_
  cases heq
  exact List.mem_of_find?_eq_some hfunction

theorem ensures_function (name : String) :
    Act.Ensures context fine
      (consult fun function? _ _ =>
        match function? name with
        | none => .error (.undefinedFunction name)
        | some function => .ok function)
      fun function => function ∈ context.functions := by
  refine ensures_consult fun _ _ function heq => ?_
  split at heq
  · cases heq
  · rename_i found hfound
    cases heq
    exact List.mem_of_find?_eq_some hfound

theorem ensures_modifyLocals {change : Locals → Locals}
    (h : ∀ machine locals outer, machine.frames = locals :: outer → fine machine →
      fine (machine.withFrames (change locals :: outer))) :
    Act.Ensures context fine (modifyLocals change) fun _ => True := by
  intro machine hmachine
  obtain ⟨globals, frames, meter, history⟩ := machine
  cases frames with
  | nil => exact ⟨hmachine, fun _ _ => trivial⟩
  | cons locals outer => exact ⟨h _ locals outer rfl hmachine, fun _ _ => trivial⟩

/-- A block is closed in the variables of the innermost call alone. -/
theorem fine_closeBlock {machine : Machine}
    (h : ∀ machine locals outer, machine.frames = locals :: outer → fine machine →
      fine (machine.withFrames (locals.pop :: outer)))
    (hm : fine machine) : fine (closeBlock machine) := by
  obtain ⟨globals, frames, meter, history⟩ := machine
  cases frames with
  | nil => exact hm
  | cons locals outer => exact h _ locals outer rfl hm

theorem ensures_inBlock {act : Evaluation α}
    (ho : ∀ machine locals outer, machine.frames = locals :: outer → fine machine →
      fine (machine.withFrames (locals.push :: outer)))
    (hc : ∀ machine locals outer, machine.frames = locals :: outer → fine machine →
      fine (machine.withFrames (locals.pop :: outer)))
    (h : Act.Ensures context fine act promise) :
    Act.Ensures context fine (inBlock act) promise :=
  .bind (ensures_modifyLocals ho) fun _ _ => .closing (fun _ hm => fine_closeBlock hc hm) h

/-- A call runs with its variables in front, and leaves without what stands in front then. -/
theorem outcome_inCall (locals : Locals) (act : Evaluation α) (machine : Machine) :
    (inCall locals act).outcome context machine =
      let (result, after) := act.outcome context (machine.withFrames (locals :: machine.frames))
      (result, after.withFrames after.frames.tail) := rfl

theorem ensures_truth (what : String) (span : Script.Span) (v : Value) :
    Act.Ensures context fine (truth what span v) fun _ => True := by
  cases v with
  | bool b => exact .pure trivial
  | _ => exact .fault _

theorem ensures_position (span : Script.Span) (v : Value) :
    Act.Ensures context fine (position span v) fun _ => True := by
  cases v with
  | int n => exact .pure trivial
  | _ => exact .fault _

/-- What is looped over are the items of a sequence. -/
theorem ensures_iterated (span : Script.Span) (v : Value) :
    Act.Ensures context fine (iterated span v)
      fun items => ∃ s, v.sequence? = some s ∧ items = s.items := by
  unfold iterated
  split
  · rename_i s hs
    exact .pure ⟨s, hs, rfl⟩
  · exact .fault _

/-- What every round promises, and what is promised when none is left, holds of the whole loop. -/
theorem ensures_rounds {each : Rounds} {body : Value → Evaluation Flow} {outcome : Flow → Prop}
    {items : List Value}
    (hc : Act.Ensures context fine (ofMetered (Metered.countRounds each)) fun _ => True)
    (hn : outcome .next) (h : ∀ item ∈ items, Act.Ensures context fine (body item) outcome) :
    Act.Ensures context fine (rounds each body items) outcome := by
  induction items with
  | nil => exact .pure hn
  | cons item rest ih =>
    refine .bind hc fun _ _ => .bind (h item List.mem_cons_self) fun flow hflow => ?_
    cases flow with
    | giveBack v => exact .pure hflow
    | next => exact ih fun other hother => h other (List.mem_cons_of_mem _ hother)

/-! ### Functions and scripts -/

open Script (Function Item Name Program Span)

/-- A call enters a function of the script, with variables that are bound to the arguments. -/
theorem ensures_callNamed {enter : Entrance} {name : String} {args : Arguments} {span : Span}
    {promise : Value → Prop}
    (h : ∀ function ∈ context.functions, ∀ params, bindParams function args = .ok params →
      Act.Ensures context fine (enter function params span) promise) :
    Act.Ensures context fine (callNamed enter name args span) promise :=
  .bind (ensures_function name) fun function hmem =>
    .bind (.ofExcept fun _ hparams => hparams) fun params hparams => h function hmem params hparams

theorem ensures_refuseCall (span : Span) {promise : Value → Prop} :
    Act.Ensures context fine (refuseCall span) promise :=
  .bind .read fun _ _ => .fault _

/-- A function gives back what its body gives back, or `none` when the body ends without it. -/
theorem ensures_runBody {caller : Caller} {function : Function} {params : Scope} {span : Span}
    {outcome : Flow → Prop} {promise : Value → Prop}
    (h : Act.Ensures context fine
      (inCall (Locals.ofParams params) (execBlock caller function.body)) outcome)
    (hv : ∀ v, outcome (.giveBack v) → promise v) (hn : promise .nothing) :
    Act.Ensures context fine (runBody caller function params span) promise := by
  refine .mapFault (.bind h fun flow hflow => ?_)
  cases flow with
  | giveBack v => exact .pure (hv v hflow)
  | next => exact .pure hn

/-- The constants are declared one after the other, each with its value. -/
theorem ensures_loadConstants {caller : Caller} {items : List Item} {good : Value → Prop}
    (hv : ∀ name value, .constant name value ∈ items →
      Act.Ensures context fine (eval caller value) good)
    (hd : ∀ machine name v, fine machine → good v →
      fine (machine.withGlobals (machine.globals.declare name v))) :
    Act.Ensures context fine (loadConstants caller items) fun _ => True := by
  induction items with
  | nil => exact .pure trivial
  | cons item rest ih =>
    have hrest := ih fun name value hmem => hv name value (List.mem_cons_of_mem _ hmem)
    cases item with
    | function definition => exact hrest
    | constant name value =>
      have hvalue := hv name value List.mem_cons_self
      exact .bind (.mapFault hvalue) fun v hgood =>
        .bind (.modify fun machine hmachine => hd machine name.text v hmachine hgood) fun _ _ =>
          hrest

/-- The entry point is a function of the script, or there is no call. -/
theorem ensures_callEntryPoint {enter : Entrance} {program : Program} {promise : Value → Prop}
    (h : ∀ function ∈ context.functions,
      Act.Ensures context fine (enter function [] function.name.span) promise) :
    Act.Ensures context fine (callEntryPoint enter program) promise := by
  refine .bind (ensures_function? entryPoint) fun found hfound => ?_
  cases found with
  | some function =>
    dsimp only
    split
    · exact h function (hfound function rfl)
    · exact .fault _
  | none =>
    refine .bind (ensures_consult fun _ _ _ _ => trivial) fun found (_ : True) => ?_
    cases found with
    | none => exact .fault _
    | some v =>
      dsimp only
      split
      · exact .fault _
      · exact .fault _

theorem ensures_collect (v : Value) :
    Act.Ensures context fine (collect v)
      fun elements => v.elements context.limits.collection = .ok elements := by
  refine .bind .read fun found hfound => ?_
  subst hfound
  split
  · rename_i elements helements
    exact .pure helements
  · exact .fault _

end Evaluation

end LandPattern
