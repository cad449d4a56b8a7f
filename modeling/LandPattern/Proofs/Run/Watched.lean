import LandPattern.Proofs.Run.Elements
import LandPattern.Proofs.Run.Endings

/-!
# Watched runs

There are states that a run of an accepted script never comes to: a statement that runs while no
function is active, the end of a block that was never opened, an assignment to an expression that
names no storage, the call of a function that is not defined. A watched run goes astray there: what
happens then may be anything. Here is what it takes for a step and its watched form to be the same.
-/

namespace LandPattern

open Script (Block Branch Expr Function Name Program Span Stmt)

/-- What happens in a state that no run comes to: anything at all. -/
abbrev Stray := (α : Type) → Evaluation α

/-- In the innermost call a block is open, besides the parameters. -/
def Machine.hasBlock (machine : Machine) : Bool :=
  match machine.frames with
  | ⟨_ :: _ :: _⟩ :: _ => true
  | _ => false

namespace Evaluation

namespace Watched

open Act (mapFault ofExcept ofOutcome)

variable {α : Type} (stray : Stray)

/-- Runs a step in a block of its own, and strays when there is no block to close in the end. -/
def inBlock (act : Evaluation α) : Evaluation α := do
  modifyLocals Locals.push
  ofOutcome fun context machine =>
    let (result, after) := act.outcome context machine
    if after.hasBlock then (result, closeBlock after) else (stray α).outcome context after

/-- Runs a step while a function is active, and strays when none is. -/
def inFrame (act : Evaluation α) : Evaluation α := do
  let machine ← get
  if machine.frames.isEmpty then stray α else act

/-- The place that the target of an assignment names, if it names one. -/
def resolve (caller : Caller) (target : Expr) : Evaluation Place :=
  if target.isPlace then Evaluation.resolve caller target else stray Place

mutual

/-- Runs a statement. -/
def exec (caller : Caller) (statement : Stmt) : Evaluation Flow :=
  inFrame stray <| counted do
    locating statement.span (ofMetered (Metered.charge 1))
    match statement with
    | .bind _ name value => do
      let v ← eval caller value
      modifyLocals fun locals => locals.declare name.text v
      return .next
    | .assign _ target op value => do
      let v ← eval caller value
      let place ← resolve stray caller target
      locating target.span (store place op v)
      return .next
    | .expr _ value => do
      let _ ← eval caller value
      return .next
    | .giveBack _ none => return .giveBack .nothing
    | .giveBack _ (some value) => return .giveBack (← eval caller value)
    | .choose _ branches otherwise => do
      match ← execBranches caller branches with
      | some flow => return flow
      | none => execOtherwise caller otherwise
    | .loop _ var iterable (.mk _ body) => do
      let items ← iterated iterable.span (← eval caller iterable)
      rounds (.ofLoop body.length) (fun item => inBlock stray do
        modifyLocals fun locals => locals.declare var.text item
        execAll caller body) items
termination_by structural statement

/-- Runs the block of the first condition that holds; nothing, when none of them does. -/
def execBranches (caller : Caller) (branches : List Branch) : Evaluation (Option Flow) :=
  match branches with
  | [] => return none
  | .mk condition block :: rest => do
    if ← truth "if" condition.span (← eval caller condition) then
      return some (← execBlock caller block)
    else execBranches caller rest
termination_by structural branches

/-- Runs the block of a choice that is left when no condition holds, if there is one. -/
def execOtherwise (caller : Caller) (otherwise : Option Block) : Evaluation Flow :=
  match otherwise with
  | none => return .next
  | some block => execBlock caller block
termination_by structural otherwise

/-- Runs the statements of a block with variables of its own. -/
def execBlock (caller : Caller) (block : Block) : Evaluation Flow :=
  match block with
  | .mk _ statements => inBlock stray (execAll caller statements)
termination_by structural block

/-- Runs statements in order, until one of them ends the function. -/
def execAll (caller : Caller) (statements : List Stmt) : Evaluation Flow :=
  match statements with
  | [] => return .next
  | statement :: rest => do
    match ← exec caller statement with
    | .giveBack v => return .giveBack v
    | .next => execAll caller rest
termination_by structural statements

end

/-- Calls functions of the script by name, and strays when there is none of this name. -/
def callNamed (enter : Entrance) : Caller := fun name args span => do
  match ← consult fun function? _ _ => .ok (function? name) with
  | none => stray Value
  | some function => enter function (← ofExcept (bindParams function args)) span

/-- Runs the body of a function; a function that ends without a result gives back `none`. -/
def runBody (caller : Caller) (function : Function) (params : Scope) (callSpan : Span) :
    Evaluation Value :=
  mapFault (·.leave function.name.text callSpan) do
    match ← inCall (Locals.ofParams params) (execBlock stray caller function.body) with
    | .giveBack v => return v
    | .next => return .nothing

/-- Enters a function, while `remaining` calls may still be opened. -/
def enter (remaining : Nat) : Entrance := fun function params callSpan =>
  match remaining with
  | 0 => refuseCall callSpan
  | rest + 1 => runBody stray (callNamed stray (enter rest)) function params callSpan

/-- Runs a script to the elements of its footprint, given how functions are entered. -/
def runProgram (enter : Entrance) (program : Program) : Evaluation (List Element) := do
  loadConstants (callNamed stray enter) program.items
  collect (← callEntryPoint enter program)

end Watched

end Evaluation

/-- Runs a script under limits as `Program.run` does, and strays wherever no run comes to. -/
def Script.Program.watched (stray : Stray) (program : Program) (limits : Limits) :
    Except Fault (List Element) × Machine :=
  (Evaluation.Watched.runProgram stray (Evaluation.Watched.enter stray limits.callDepth)
    program).outcome ⟨program.functions, limits⟩ Machine.start

/-! ## Steps that never go astray -/

/-- The causes that the run of an accepted script may end with. -/
def Fault.Cause.Possible : Fault.Cause → Prop
  | .refusal why => why.Common
  | cause => cause.kind ≠ .internal

/-- The fault is one that the run of an accepted script may end with. -/
abbrev Fault.Possible (fault : Fault) : Prop := fault.cause.Possible

instance : Fault.Bears Fault.Possible where
  refusal h := h

theorem Refusal.Common.locate {why : Refusal} (h : why.Common) (span : Span) :
    ((Fault.refusal why).locate span).Possible := by
  rw [Fault.Possible, Fault.cause_locate]
  exact h

/-- All values are good, and so many scopes are open in the active calls, innermost first. -/
structure Machine.Fine (good : Value → Prop) (shape : List Nat) (machine : Machine) : Prop where
  all : machine.All good
  shape : machine.frames.map (fun locals => locals.scopes.length) = shape

namespace Machine.Fine

variable {good : Value → Prop} {shape : List Nat} {machine : Machine}

theorem withMeter (h : machine.Fine good shape) (meter : Meter) :
    (machine.withMeter meter).Fine good shape := ⟨h.all.withMeter meter, h.shape⟩

theorem noted {v : Value} (h : machine.Fine good shape) (hv : good v) :
    (machine.noted (some v)).Fine good shape :=
  ⟨h.all.noted fun _ heq => Option.some.inj heq ▸ hv, h.shape⟩

theorem isEmpty_frames {scopes : Nat} {outer : List Nat} (h : machine.Fine good (scopes :: outer)) :
    machine.frames.isEmpty = false := by
  have hshape := h.shape
  cases hframes : machine.frames with
  | nil =>
    rw [hframes] at hshape
    cases hshape
  | cons locals rest => rfl

/-- The variables of the innermost call are changed, and with them how many scopes it has. -/
theorem changeLocals {change : Locals → Locals} {locals : Locals} {rest : List Locals}
    {scopes left : Nat} {outer : List Nat} (h : machine.Fine good (scopes :: outer))
    (hf : machine.frames = locals :: rest) (hc : locals.All good → (change locals).All good)
    (hs : locals.scopes.length = scopes → (change locals).scopes.length = left) :
    (machine.withFrames (change locals :: rest)).Fine good (left :: outer) := by
  have hshape := h.shape
  rw [hf, List.map_cons] at hshape
  obtain ⟨hscopes, houter⟩ := List.cons.inj hshape
  refine ⟨Evaluation.all_changeLocals hc hf h.all, ?_⟩
  exact List.cons_eq_cons.2 ⟨hs hscopes, houter⟩

theorem hasBlock {scopes : Nat} {outer : List Nat}
    (h : machine.Fine good ((scopes + 2) :: outer)) : machine.hasBlock = true := by
  have hshape := h.shape
  unfold Machine.hasBlock
  split
  · rfl
  · rename_i hne
    cases hframes : machine.frames with
    | nil =>
      rw [hframes] at hshape
      cases hshape
    | cons locals rest =>
      rw [hframes, List.map_cons] at hshape
      obtain ⟨hscopes, -⟩ := List.cons.inj hshape
      obtain ⟨scopes⟩ := locals
      match scopes with
      | [] => cases hscopes
      | [_] => cases hscopes
      | first :: second :: more => exact absurd hframes (hne first second more rest)

end Machine.Fine

theorem Locals.length_declare (locals : Locals) (name : String) (v : Value) :
    (locals.declare name v).scopes.length = locals.scopes.length := by
  unfold Locals.declare
  split
  · rfl
  · rename_i inner outer heq
    rw [heq]
    rfl

theorem Locals.length_set (locals : Locals) (name : String) (v : Value) :
    (locals.set name v).scopes.length = locals.scopes.length := by
  obtain ⟨scopes⟩ := locals
  change (Locals.set.go name v scopes).length = scopes.length
  induction scopes with
  | nil => rfl
  | cons scope outer ih =>
    unfold Locals.set.go
    split
    · rfl
    · exact congrArg (· + 1) ih

namespace Evaluation

variable {context : Context} {fine : Machine → Prop} {good : Value → Prop} {α β : Type}
variable {act watched : Evaluation α} {promise other : α → Prop}

/-- From every fine state a step ends as its watched form does: in a fine state, with a result as
promised, or with a possible fault. -/
structure Tracks (context : Context) (fine : Machine → Prop) (act watched : Evaluation α)
    (promise : α → Prop) : Prop where
  same : ∀ machine, fine machine → act.outcome context machine = watched.outcome context machine
  keeps : Act.Ensures context fine act promise
  possible : ∀ machine, fine machine → ∀ fault,
    (act.outcome context machine).1 = .error fault → fault.Possible

namespace Tracks

/-- A step that nothing has to be watched in. -/
theorem refl (h : Act.Ensures context fine act promise) {result : α → Prop}
    (hp : Act.Ends context act result Fault.Possible) : Tracks context fine act act promise :=
  ⟨fun _ _ => rfl, h, fun machine _ => (hp machine).2⟩

theorem pure {value : α} (h : promise value) :
    Tracks context fine (pure value) (pure value) promise :=
  .refl (.pure h) (.pure h)

theorem fault {fault : Fault} (h : fault.Possible) :
    Tracks context fine (throw fault : Evaluation α) (throw fault) promise :=
  have hends : Act.Ends context (throw fault : Evaluation α) promise Fault.Possible := .fault h
  .refl (.fault fault) hends

theorem refuseAt {why : Refusal} {span : Span} (h : why.Common) :
    Tracks context fine (refuseAt span why : Evaluation α) (Evaluation.refuseAt span why) promise :=
  .fault (h.locate span)

/-- Steps with the same outcomes go astray as little. -/
theorem congr {plain guarded : Evaluation α} (h : Tracks context fine act watched promise)
    (hp : ∀ machine, plain.outcome context machine = act.outcome context machine)
    (hg : ∀ machine, guarded.outcome context machine = watched.outcome context machine) :
    Tracks context fine plain guarded promise := by
  refine ⟨fun machine hfine => ?_, fun machine hfine => ?_, fun machine hfine => ?_⟩
  · rw [hp, hg, h.same machine hfine]
  · rw [hp]
    exact h.keeps machine hfine
  · rw [hp]
    exact h.possible machine hfine

/-- The second step is entered with what the first one promises. -/
theorem bind {after : β → Prop} {next more : α → Evaluation β}
    (h : Tracks context fine act watched promise)
    (hn : ∀ value, promise value → Tracks context fine (next value) (more value) after) :
    Tracks context fine (act >>= next) (watched >>= more) after := by
  refine ⟨fun machine hfine => ?_, .bind h.keeps fun value hv => (hn value hv).keeps,
    fun machine hfine fault heq => ?_⟩
  · have hsame := h.same machine hfine
    have hkeeps := h.keeps machine hfine
    rcases hrun : act.outcome context machine with ⟨result, middle⟩
    rw [hrun] at hsame hkeeps
    cases result with
    | ok value =>
      rw [Act.outcome_bind_ok _ _ hrun, Act.outcome_bind_ok _ _ hsame.symm]
      exact (hn value (hkeeps.2 value rfl)).same middle hkeeps.1
    | error fault => rw [Act.outcome_bind_error _ _ hrun, Act.outcome_bind_error _ _ hsame.symm]
  · have hkeeps := h.keeps machine hfine
    have hpossible := h.possible machine hfine
    rcases hrun : act.outcome context machine with ⟨result, middle⟩
    rw [hrun] at hkeeps hpossible
    cases result with
    | ok value =>
      rw [Act.outcome_bind_ok _ _ hrun] at heq
      exact (hn value (hkeeps.2 value rfl)).possible middle hkeeps.1 fault heq
    | error found =>
      rw [Act.outcome_bind_error _ _ hrun] at heq
      cases heq
      exact hpossible _ rfl

theorem ofExcept {result : Except Refusal α} (h : ∀ value, result = .ok value → promise value)
    (hc : Refusal.CommonIn result) :
    Tracks context fine (Act.ofExcept result) (Act.ofExcept result) promise := by
  cases result with
  | ok value => exact .pure (h value rfl)
  | error why => exact .fault (hc why rfl)

theorem ite {no missing : Evaluation α} {condition : Prop} [Decidable condition]
    (h : condition → Tracks context fine act watched promise)
    (hn : ¬ condition → Tracks context fine no missing promise) :
    Tracks context fine (if condition then act else no) (if condition then watched else missing)
      promise := by
  split
  · exact h ‹_›
  · exact hn ‹_›

/-- A fault that is changed keeps its cause. -/
theorem mapFault {change : Fault → Fault} (hc : ∀ fault, (change fault).cause = fault.cause)
    (h : Tracks context fine act watched promise) :
    Tracks context fine (Act.mapFault change act) (Act.mapFault change watched) promise := by
  refine ⟨fun machine hfine => ?_, .mapFault h.keeps, fun machine hfine fault heq => ?_⟩
  · rw [Act.outcome_mapFault, Act.outcome_mapFault, h.same machine hfine]
  · have hpossible := h.possible machine hfine
    rw [Act.outcome_mapFault] at heq
    cases hrun : (act.outcome context machine).1 with
    | ok value =>
      rw [hrun] at heq
      cases heq
    | error found =>
      rw [hrun] at heq
      cases heq
      rw [Fault.Possible, hc]
      exact hpossible found hrun

theorem locating (span : Span) (h : Tracks context fine act watched promise) :
    Tracks context fine (locating span act) (Evaluation.locating span watched) promise :=
  .mapFault (fun fault => fault.cause_locate span) h

theorem closing {close : Machine → Machine}
    (hc : ∀ machine, fine machine → fine (close machine))
    (h : Tracks context fine act watched promise) :
    Tracks context fine (Act.closing close act) (Act.closing close watched) promise := by
  refine ⟨fun machine hfine => ?_, .closing hc h.keeps, fun machine hfine => ?_⟩
  · rw [Act.outcome_closing, Act.outcome_closing, h.same machine hfine]
  · rw [Act.outcome_closing]
    exact h.possible machine hfine

theorem modify {change : Machine → Machine} (h : ∀ machine, fine machine → fine (change machine)) :
    Tracks context fine (modify change : Evaluation PUnit) (modify change) fun _ => True :=
  .refl (.modify h) .modify

end Tracks

/-! ## Steps from fine states -/

section Fine

variable {shape outer : List Nat} {scopes : Nat}

theorem tracks_ofMetered {act : Metered α} (h : Metered.Yields context.limits act promise)
    (hm : act.Made Fault.Possible) :
    Tracks context (Machine.Fine good shape) (ofMetered act) (ofMetered act) promise :=
  .refl (ensures_ofMetered (fun _ meter hfine => hfine.withMeter meter) h)
    (ends_ofMetered (hm.ends (fun _ => by simp [Fault.Cause.Possible, Fault.of, Fault.Cause.kind])
      context.limits))

theorem tracks_counted (h : Tracks context (Machine.Fine good shape) act watched promise) :
    Tracks context (Machine.Fine good shape) (counted act) (counted watched) promise :=
  .bind (.modify fun _ hfine => hfine.withMeter _) fun _ _ =>
    .closing (fun _ hfine => hfine.withMeter _) h

theorem tracks_noting {act watched : Evaluation Value}
    (h : Tracks context (Machine.Fine good shape) act watched good) :
    Tracks context (Machine.Fine good shape) (noting act) (noting watched) good :=
  .bind h fun _ hv => .bind (.modify fun _ hfine => hfine.noted hv) fun _ _ => .pure hv

/-- What is looked up is found among good values, and there are variables only in an active call. -/
theorem tracks_consult
    {look : (String → Option Function) → Scope → Option Locals → Except Refusal α}
    (h : ∀ globals locals value, Scope.All good globals →
      (∀ found, locals = some found → Locals.All good found ∧ shape ≠ []) →
      look context.function? globals locals = .ok value → promise value)
    (hc : ∀ globals locals, Refusal.CommonIn (look context.function? globals locals)) :
    Tracks context (Machine.Fine good shape) (consult look) (consult look) promise := by
  refine ⟨fun _ _ => rfl, ensures_consult fun machine hfine value hvalue => ?_, ?_⟩
  · refine h machine.globals machine.frames.head? value hfine.all.now.globals
      (fun found hfound => ⟨?_, fun hempty => ?_⟩) hvalue
    · exact hfine.all.now.frames found (List.mem_of_mem_head? hfound)
    · have hframes := List.map_eq_nil_iff.1 (hfine.shape.trans hempty)
      rw [hframes] at hfound
      cases hfound
  · intro machine _
    have hlook : Tracks context (fun _ => True)
        (Act.ofExcept (look context.function? machine.globals machine.frames.head?))
        (Act.ofExcept (look context.function? machine.globals machine.frames.head?)) fun _ => True :=
      .ofExcept (fun _ _ => trivial) (hc _ _)
    exact hlook.possible machine trivial

/-- While a function is active, its variables can be changed. -/
theorem tracks_modifyLocals {change : Locals → Locals}
    (ha : ∀ locals, Locals.All good locals → Locals.All good (change locals))
    (hs : ∀ locals, (change locals).scopes.length = locals.scopes.length) :
    Tracks context (Machine.Fine good (scopes :: outer)) (modifyLocals change)
      (modifyLocals change) fun _ => True := by
  refine ⟨fun _ _ => rfl, ensures_modifyLocals fun machine locals rest hf hfine => ?_, ?_⟩
  · exact hfine.changeLocals hf (ha locals) ((hs locals).trans ·)
  · intro machine hfine fault heq
    obtain ⟨globals, frames, meter, history⟩ := machine
    cases frames with
    | nil => cases hfine.isEmpty_frames
    | cons locals rest => cases heq

/-- A block is opened, and closed again however it ends. -/
theorem outcome_inBlock (act : Evaluation α) {machine : Machine} {locals : Locals}
    {rest : List Locals} (hf : machine.frames = locals :: rest) :
    (inBlock act).outcome context machine =
      let (result, after) := act.outcome context (machine.withFrames (locals.push :: rest))
      (result, closeBlock after) := by
  obtain ⟨globals, frames, meter, history⟩ := machine
  cases hf
  rfl

theorem outcome_watched_inBlock (stray : Stray) (act : Evaluation α) {machine : Machine}
    {locals : Locals} {rest : List Locals} (hf : machine.frames = locals :: rest) :
    (Watched.inBlock stray act).outcome context machine =
      let (result, after) := act.outcome context (machine.withFrames (locals.push :: rest))
      if after.hasBlock then (result, closeBlock after) else (stray α).outcome context after := by
  obtain ⟨globals, frames, meter, history⟩ := machine
  cases hf
  rfl

/-- A block that is open can be closed, and what is left has one scope less. -/
theorem fine_closeBlock_open {machine : Machine}
    (h : machine.Fine good ((scopes + 2) :: outer)) :
    (closeBlock machine).Fine good ((scopes + 1) :: outer) := by
  cases hf : machine.frames with
  | nil =>
    have hempty := h.isEmpty_frames
    rw [hf] at hempty
    cases hempty
  | cons locals rest =>
    have hclosed : closeBlock machine = machine.withFrames (locals.pop :: rest) := by
      rw [closeBlock, hf]
    rw [hclosed]
    refine h.changeLocals hf Locals.All.pop fun hlength => ?_
    obtain ⟨inner⟩ := locals
    match inner with
    | [] => cases hlength
    | [_] => cases hlength
    | _ :: _ :: _ => exact Nat.succ.inj hlength

/-- In a block there is one scope more, and in the end a block to close. -/
theorem tracks_inBlock (stray : Stray)
    (h : Tracks context (Machine.Fine good ((scopes + 2) :: outer)) act watched promise) :
    Tracks context (Machine.Fine good ((scopes + 1) :: outer)) (inBlock act)
      (Watched.inBlock stray watched) promise := by
  have hopened : ∀ machine : Machine, machine.Fine good ((scopes + 1) :: outer) →
      ∃ locals rest, machine.frames = locals :: rest ∧
        (machine.withFrames (locals.push :: rest)).Fine good ((scopes + 2) :: outer) := by
    intro machine hfine
    cases hf : machine.frames with
    | nil =>
      have hempty := hfine.isEmpty_frames
      rw [hf] at hempty
      cases hempty
    | cons locals rest =>
      exact ⟨locals, rest, rfl, hfine.changeLocals hf Locals.All.push (congrArg (· + 1) ·)⟩
  refine ⟨fun machine hfine => ?_, fun machine hfine => ?_, fun machine hfine => ?_⟩
  · obtain ⟨locals, rest, hf, hpushed⟩ := hopened machine hfine
    have hblock := (h.keeps _ hpushed).1.hasBlock
    rw [outcome_inBlock _ hf, outcome_watched_inBlock _ _ hf, ← h.same _ hpushed]
    simp only [hblock, if_true]
  · obtain ⟨locals, rest, hf, hpushed⟩ := hopened machine hfine
    have hkeeps := h.keeps _ hpushed
    rw [outcome_inBlock _ hf]
    exact ⟨fine_closeBlock_open hkeeps.1, hkeeps.2⟩
  · obtain ⟨locals, rest, hf, hpushed⟩ := hopened machine hfine
    rw [outcome_inBlock _ hf]
    exact h.possible _ hpushed

/-- A call starts with one scope, that of its parameters, and ends with the scopes of the caller. -/
theorem tracks_inCall {params : Scope} (hp : params.All good)
    (h : Tracks context (Machine.Fine good (1 :: shape)) act watched promise) :
    Tracks context (Machine.Fine good shape) (inCall (Locals.ofParams params) act)
      (inCall (Locals.ofParams params) watched) promise := by
  have hopened : ∀ machine : Machine, machine.Fine good shape →
      (machine.withFrames (Locals.ofParams params :: machine.frames)).Fine good (1 :: shape) := by
    intro machine hfine
    refine ⟨hfine.all.withFrames fun found hfound => ?_, congrArg (1 :: ·) hfine.shape⟩
    rcases List.mem_cons.1 hfound with rfl | hold
    · exact Locals.All.ofParams hp
    · exact hfine.all.now.frames found hold
  have hclosed : ∀ machine : Machine, machine.Fine good (1 :: shape) →
      (machine.withFrames machine.frames.tail).Fine good shape := by
    intro machine hfine
    refine ⟨hfine.all.withFrames fun found hfound =>
      hfine.all.now.frames found (List.mem_of_mem_tail hfound), ?_⟩
    have hshape := congrArg List.tail hfine.shape
    rw [← List.map_tail] at hshape
    exact hshape
  refine ⟨fun machine hfine => ?_, fun machine hfine => ?_, fun machine hfine => ?_⟩
  · rw [outcome_inCall, outcome_inCall, h.same _ (hopened machine hfine)]
  · have hkeeps := h.keeps _ (hopened machine hfine)
    rw [outcome_inCall]
    exact ⟨hclosed _ hkeeps.1, hkeeps.2⟩
  · rw [outcome_inCall]
    exact h.possible _ (hopened machine hfine)

/-- A statement that runs while a function is active need not be watched. -/
theorem tracks_inFrame (stray : Stray)
    (h : Tracks context (Machine.Fine good (scopes :: outer)) act watched promise) :
    Tracks context (Machine.Fine good (scopes :: outer)) act (Watched.inFrame stray watched)
      promise := by
  refine ⟨fun machine hfine => ?_, h.keeps, h.possible⟩
  rw [h.same machine hfine, Watched.inFrame, Act.outcome_bind, Act.outcome_get]
  simp only [hfine.isEmpty_frames, Bool.false_eq_true, if_false]

end Fine

end Evaluation

end LandPattern
