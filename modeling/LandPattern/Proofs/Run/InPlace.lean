import LandPattern.Proofs.Run.Copying
import LandPattern.Proofs.Run.Layout

/-!
# Changes in place

An assignment with an operator, and a method that changes its receiver, work on a component in its
place. In every state that a run reaches and for every component, both end as reading the component,
computing and storing the result does: with a fault where this faults, and otherwise with the same
result and the same variables. The operands must leave the variables as they are, together with what
these share: the two ways evaluate them in different order, and equality tells values that share
their items from copies item by item.
-/

namespace LandPattern

open Script (Argument AssignOp BinaryOp Expr Function Name Program Span Stmt)
open Evaluation (argumentsAt? callNamed enter eval evalArgs exec held? valueBetween Calm)

/-! ## Two trees that differ in their places -/

namespace Act

section

variable {ρ σ τ α β : Type} {context bare : ρ} {act other mirror : Act ρ σ α} {state : σ}

/-- Two acts with one mirror end with the same result or with the same kind of fault. -/
theorem Mirrors.cases (h : Mirrors context bare id act mirror)
    (ho : Mirrors context bare id other mirror) (state : σ) :
    other.outcome context state = act.outcome context state ∨ ∃ fault trouble after,
      act.outcome context state = (.error fault, after) ∧
      other.outcome context state = (.error trouble, after) ∧
      trouble.cause.kind = fault.cause.kind := by
  have hends := (ho state).symm.trans (h state)
  generalize act.outcome context state = ended at hends ⊢
  generalize other.outcome context state = last at hends ⊢
  obtain ⟨result, after⟩ := ended
  obtain ⟨found, reached⟩ := last
  obtain ⟨hresult, hsame⟩ := Prod.mk.inj hends
  subst hsame
  cases result with
  | ok value =>
    cases found with
    | ok another =>
      cases hresult
      exact .inl rfl
    | error trouble => cases hresult
  | error fault =>
    cases found with
    | ok another => cases hresult
    | error trouble =>
      have hbare : trouble.placeless = fault.placeless := Except.error.inj hresult
      have hkind : trouble.kind = fault.kind := by
        rw [← trouble.kind_placeless, hbare, fault.kind_placeless]
      exact .inr ⟨fault, trouble, _, rfl, rfl, hkind⟩

/-- Another act with the same mirror ends alike. -/
theorem EndsBoth.left {same : α → σ → β → τ → Prop} {met : Except Fault β × τ}
    (h : EndsBoth same (act.outcome context state) met) (hact : Mirrors context bare id act mirror)
    (hother : Mirrors context bare id other mirror) :
    EndsBoth same (other.outcome context state) met := by
  rcases hact.cases hother state with heq | ⟨fault, trouble, after, hrun, hlast, hkind⟩
  · rwa [heq]
  · rw [hrun] at h
    rw [hlast]
    obtain ⟨result, final⟩ := met
    cases result with
    | ok value => exact hkind.trans h
    | error problem => trivial

theorem EndsBoth.swap {same : α → σ → β → τ → Prop} {ended : Except Fault α × σ}
    {met : Except Fault β × τ} (h : EndsBoth same ended met) :
    EndsBoth (fun other last value after => same value after other last) met ended := by
  rcases ended with ⟨fault | value, after⟩ <;> rcases met with ⟨trouble | other, last⟩ <;> exact h

theorem EndsBoth.right {same : β → τ → α → σ → Prop} {met : Except Fault β × τ}
    (h : EndsBoth same met (act.outcome context state)) (hact : Mirrors context bare id act mirror)
    (hother : Mirrors context bare id other mirror) :
    EndsBoth same met (other.outcome context state) := (h.swap.left hact hother).swap

end

end Act

/-! ## Values within the limits -/

/-- Bounds that leave room for these texts and for so many items, and for nothing else beyond the
limits. -/
theorem exists_bounds {limits : Limits} {items : Nat} (hd : 1 ≤ limits.valueDepth) (hi : 3 ≤ items)
    (hc : limits.collection ≤ items) (texts : List String) :
    ∃ b : Bounds, b.Covers limits ∧ b.items ≤ items ∧ b.depth ≤ limits.valueDepth ∧
      ∀ text ∈ texts, (Value.text text).Within b := by
  have hroom : ∃ bytes, 11 ≤ bytes ∧ limits.collection ≤ bytes ∧
      ∀ text ∈ texts, text.utf8ByteSize ≤ bytes := by
    induction texts with
    | nil => exact ⟨11 + limits.collection, by omega, by omega, fun _ h => absurd h List.not_mem_nil⟩
    | cons first rest ih =>
      obtain ⟨bytes, heleven, hcollection, hrest⟩ := ih
      refine ⟨bytes + first.utf8ByteSize, by omega, by omega, fun text htext => ?_⟩
      rcases List.mem_cons.1 htext with rfl | htail
      · omega
      · exact Nat.le_add_right_of_le (hrest text htail)
  obtain ⟨bytes, heleven, hcollection, hall⟩ := hroom
  exact ⟨⟨items, limits.valueDepth, bytes, hi, hd, heleven⟩,
    ⟨hc, hcollection, Nat.le_refl _⟩, Nat.le_refl _, Nat.le_refl _,
    fun text htext => Value.within_text (hall text htext)⟩

namespace Script.Program

variable {program : Program} {limits : Limits} {machine : Machine} {good : Value → Prop}

theorem functionTexts (ht : ∀ text ∈ program.texts, good (.text text)) :
    Evaluation.FunctionTexts ⟨program.functions, limits⟩ good := by
  intro function hmem text htext
  obtain ⟨item, hitem, heq⟩ := List.mem_filterMap.1 hmem
  cases item with
  | constant name value => cases heq
  | function definition =>
    cases heq
    exact ht text (List.mem_flatMap.2 ⟨_, hitem, htext⟩)

/-- In a state that a run reaches all values have a lasting property. -/
theorem Reaches.all (h : program.Reaches limits machine)
    (hg : Value.Lasting ⟨program.functions, limits⟩ good)
    (ht : ∀ text ∈ program.texts, good (.text text)) : (machine.moment none).All good := by
  obtain ⟨value, hstart | hmoment⟩ := h
  · have hglobals : machine.globals = [] := congrArg Moment.globals hstart
    have hframes : machine.frames = [] := congrArg Moment.frames hstart
    refine ⟨fun entry hentry => ?_, fun locals hlocals => ?_, fun _ heq => by cases heq⟩
    · rw [Machine.moment, hglobals] at hentry
      cases hentry
    · rw [Machine.moment, hframes] at hlocals
      cases hlocals
  · have hall := (program.run_lasting hg ht).history _ hmoment
    exact ⟨hall.globals, hall.frames, fun _ heq => by cases heq⟩

end Script.Program

namespace Evaluation

variable {context : Context} {start : Machine} {good : Value → Prop} {remaining : Nat}

/-- Arguments have a lasting property of what is stored, whatever was stored before. -/
theorem all_argumentsAt? (hg : Value.Lasting context good) (hf : FunctionTexts context good)
    (hi : start.Issued) (hnow : (start.moment none).All good) {args : List Argument}
    (ht : ∀ text ∈ Script.argumentTexts args, good (.text text))
    (hr : ∀ (given : Arguments) f, given.All good → (given.restamp f).All good) {given : Arguments}
    (h : argumentsAt? context start (callNamed (enter remaining)) args = some given) :
    given.All good := by
  -- the same state without its past: the property is known to hold now, and the past is not read
  have hclear : Machine.Resumed { start with history := fun _ => False } id start :=
    ⟨rfl, List.modifyHead_id.symm ▸ rfl, .refl _⟩
  obtain ⟨delay, -, -, -, hcounts, hbeside⟩ := hclear.delayed hi
  have hfollows : Follows delay context (delay.Adding id) start.globals
      (Arguments.restamp delay.stamp) (evalArgs (callNamed (enter remaining)) .empty args)
      (evalArgs (callNamed (enter remaining)) .empty args) :=
    follows_evalArgs (callsFollow_enter remaining) (delay.links_adding Locals.unseen_id) .empty args
      fun _ _ => trivial
  have hkeeps := keeps_evalArgs hg (keeps_callNamed (keeps_enter hg hf remaining)) .empty args .empty
    ht { start with history := fun _ => False } ⟨hnow, fun _ hpast => hpast.elim⟩
  have hends := hfollows.ends _ start hbeside (hcounts _)
  unfold argumentsAt? at h
  generalize (evalArgs (callNamed (enter remaining)) .empty args).outcome context
    { start with history := fun _ => False } = ended at hkeeps hends
  generalize (evalArgs (callNamed (enter remaining)) .empty args).outcome context start = last
    at hends h
  rcases last with ⟨fault | found, met⟩
  · cases h
  · cases h
    rcases ended with ⟨fault | early, after⟩
    · exact hends.elim
    · rw [hends.1]
      exact hr early delay.stamp (hkeeps.2 early rfl)

end Evaluation

/-! ## Methods that only read -/

/-- A method that is not listed as mutating gives its receiver back as it was. -/
theorem Method.yields_unchanged {limits : Limits} {method : String} (hm : mutates method = false)
    (v : Value) (args : Arguments) :
    Metered.Yields limits (call v method args) fun found => found.1 = v := by
  cases v with
  | list s =>
    change Metered.Yields limits (callOnList s method args) _
    unfold callOnList
    split
    · exact absurd hm (by decide)
    · exact absurd hm (by decide)
    · exact absurd hm (by decide)
    · exact absurd hm (by decide)
    · exact Metered.yields_seq fun item => Metered.yields_seq fun found => .pure rfl
    · exact Metered.yields_refuse _
  | element e =>
    refine .ofExcept fun found hfound => ?_
    unfold callOnElement at hfound
    split at hfound
    · obtain ⟨copy, -, hlast⟩ := exists_of_bind_ok hfound
      cases hlast
      rfl
    · obtain ⟨copy, -, hlast⟩ := exists_of_bind_ok hfound
      cases hlast
      rfl
    · exact absurd hm (by decide)
    · cases hfound
  | _ => exact Metered.yields_refuse _

/-- Such a method leaves all variables as they are, those that its receiver stands in included. -/
theorem Evaluation.calm_method {context : Context} {start : Machine} (hi : start.Issued)
    {remaining : Nat} {method : Name} (hm : Method.mutates method.text = false) {receiver : Expr}
    (hp : receiver.isPlace) {args : List Argument}
    (hc : ∀ index ∈ receiver.indices, Calm context start (eval (callNamed (enter remaining)) index))
    (ha : ∀ arg ∈ args, Calm context start (eval (callNamed (enter remaining)) arg.value))
    (span : Span) :
    Calm context start (eval (callNamed (enter remaining)) (.method span receiver method args)) := by
  obtain ⟨called, hcalled⟩ := exists_calls context.limits start method.text
  have hanswers : Answers context start id
      (eval (callNamed (enter remaining)) (.method span receiver method args))
      ((component? context start (callNamed (enter remaining)) receiver).bind fun old =>
        (argumentsAt? context start (callNamed (enter remaining)) args).bind fun given =>
          (called old given).bind some)
      (Answers.Only (fun x v => x.2.Like v) id) := by
    unfold eval
    refine answers_counted (answers_locating _ (answers_noting (answers_charged ?_)))
    refine answers_locating _ ?_
    rw [if_neg (by rw [hm, Bool.false_and]; exact Bool.false_ne_true)]
    refine answers_then (answers_place hi receiver hp hc) fun old other hold hother => ?_
    refine answers_then (answers_evalArgs hi Locals.unseen_id args (fun _ _ => trivial) ha)
      fun given _ _ hgiven => ?_
    obtain ⟨f, hf, rfl⟩ := hgiven
    refine answers_then (answers_ofMetered (.method other method.text _)
      (hcalled.answers (itemsBelow_component hi hold) hother hf)) fun found result _ hresult => ?_
    exact answers_pure ⟨hresult.2, rfl⟩
  intro v after hrun
  have hends := hanswers start (.refl start)
  rw [hrun] at hends
  obtain ⟨_, -, _, ⟨-, rfl⟩, hresumed⟩ := hends
  rw [hresumed.frames, List.modifyHead_id, id]

/-! ## Both ways -/

/-- The other machine has the same constants and the same variables, but for one that is declared in
its innermost call. -/
structure Machine.SameBeside (name : String) (machine other : Machine) : Prop where
  globals : machine.globals = other.globals
  frames : ∃ v, other.unstamped = machine.unstamped.modifyHead fun locals => locals.declare name v

namespace Evaluation

variable {program : Program} {limits : Limits} {start : Machine} {remaining : Nat} {method : Name}
  {receiver : Expr} {args : List Argument}

/-- Components of variables are within bounds that cover the limits and the texts of the script. -/
theorem within_component (h : program.Reaches limits start) {b : Bounds} (hb : b.Covers limits)
    (ht : ∀ text ∈ program.texts, (Value.text text).Within b) {name : String} {steps : List Step}
    {root old : Value} (hroot : held? start name = some root) (hold : root.at? steps = some old) :
    old.Within b := by
  have hall := h.all (Value.lasting_within program.functions hb) ht
  obtain ⟨locals, hlocals, hget⟩ := Option.bind_eq_some_iff.1 hroot
  have hwithin := (hall.frames locals (List.mem_of_mem_head? hlocals)).get? hget
  exact Value.at?_induction (fun _ _ _ hv hw => hv.stepTo? hw) hwithin hold

/-- So are arguments, if the texts in them are covered as well. -/
theorem within_arguments (h : program.Reaches limits start) (hi : start.Issued) {b : Bounds}
    (hb : b.Covers limits) (ht : ∀ text ∈ program.texts, (Value.text text).Within b)
    (ha : ∀ text ∈ Script.argumentTexts args, (Value.text text).Within b) {given : Arguments}
    (hgiven : argumentsAt? ⟨program.functions, limits⟩ start (callNamed (enter remaining)) args =
      some given) : given.All (Value.Within b) := by
  have hlasting := Value.lasting_within program.functions hb
  exact all_argumentsAt? hlasting (Script.Program.functionTexts ht) hi (h.all hlasting ht) ha
    (fun given f hgood => hgood.restamp f) hgiven

/-- What a method leaves of a component of a variable may be stored. -/
theorem storable_called (h : program.Reaches limits start) (hi : start.Issued)
    (hd : 1 ≤ limits.valueDepth) (hl : 3 ≤ limits.collection)
    {called : Value → Arguments → Option (Value × Value)}
    (hcalled : Calls limits start method.text called) {name : String} {steps : List Step}
    {root old : Value} {given : Arguments} {found : Value × Value}
    (hroot : held? start name = some root) (hold : root.at? steps = some old)
    (hgiven : argumentsAt? ⟨program.functions, limits⟩ start (callNamed (enter remaining)) args =
      some given) (hfound : called old given = some found) : found.1.storable limits := by
  obtain ⟨b, hcovers, hitems, hdepth, htexts⟩ :=
    exists_bounds hd hl (Nat.le_refl _) (program.texts ++ Script.argumentTexts args)
  have hprogram : ∀ text ∈ program.texts, (Value.text text).Within b := fun text htext =>
    htexts text (List.mem_append_left _ htext)
  exact hcalled.storable hcovers hitems hdepth (within_component h hcovers hprogram hroot hold)
    (within_arguments h hi hcovers hprogram
      (fun text htext => htexts text (List.mem_append_right _ htext)) hgiven) hfound

/-- A method that changes its receiver ends in its place as on a copy that is stored back. -/
theorem ends_copied (h : program.Reaches limits start) (hi : start.Issued)
    (hd : 1 ≤ limits.valueDepth) (hl : 3 ≤ limits.collection) (hm : Method.mutates method.text)
    (hp : receiver.isPlace)
    (hc : ∀ index ∈ receiver.indices,
      Calm ⟨program.functions, limits⟩ start (eval (callNamed (enter remaining)) index))
    (ha : ∀ arg ∈ args,
      Calm ⟨program.functions, limits⟩ start (eval (callNamed (enter remaining)) arg.value))
    (copy : Name) (hkr : copy.text ∉ receiver.mentions)
    (hka : copy.text ∉ Script.argumentMentions args) (span : Span) :
    Act.EndsBoth (fun v after w last => v.Like w ∧ after.SameBeside copy.text last)
      ((eval (callNamed (enter remaining)) (.method span receiver method args)).outcome
        ⟨program.functions, limits⟩ start)
      ((valueBetween (callNamed (enter remaining)) (.bind span copy receiver)
        (.method span (.name span copy.text) method args)
        (.assign span receiver .set (.name span copy.text))).outcome
        ⟨program.functions, limits⟩ start) := by
  obtain ⟨called, hcalled⟩ := exists_calls limits start method.text
  have hplace := answers_method hi hm receiver args hcalled hp span hc ha start (.refl start)
  have hcopied := answers_copied hcalled hi h.hasBlocks hm hp hc ha copy hkr hka span start
    (.refl start)
  rw [copied_eq fun place root old given found _ hroot hold hgiven hfound =>
    storable_called h hi hd hl hcalled hroot hold hgiven hfound] at hcopied
  refine hplace.both hcopied fun x v after w last hx hafter hlast => ?_
  obtain ⟨_, ⟨hv, a, ha, rfl⟩, hresumed⟩ := hafter
  obtain ⟨_, ⟨hw, c, b, hb, rfl⟩, hmet⟩ := hlast
  refine ⟨hv.symm.trans hw, hresumed.globals.trans hmet.globals.symm, c.unstamped, ?_⟩
  have hroot : x.1 ≠ copy.text := by
    obtain ⟨place, hplace, hrest⟩ := Option.bind_eq_some_iff.1 hx
    obtain ⟨given, -, hlast⟩ := Option.bind_eq_some_iff.1 hrest
    obtain ⟨whole, -, rfl⟩ := Option.map_eq_some_iff.1 hlast
    intro heq
    exact hkr (heq ▸ receiver.root_subset_mentions _ (root_mem_of_placeOf? receiver hplace))
  -- the copy is declared before the receiver is written to, and neither sees the other
  rw [hresumed.unstamped_set id ha fun _ => rfl,
    hmet.unstamped_set (fun locals => locals.declare copy.text c.unstamped) hb fun locals =>
      Locals.declare_restamp _ locals copy.text c, List.modifyHead_modifyHead]
  refine congrArg (List.modifyHead · _) (funext fun locals => ?_)
  exact (Locals.unseen_declare copy.text c.unstamped).set locals _ hroot

/-- Evaluating any of the operands leaves all variables as they are. -/
def CalmOperands (context : Context) (machine : Machine) (caller : Caller)
    (operands : List Expr) : Prop :=
  ∀ e ∈ operands, Calm context machine (eval caller e)

theorem mirrors_valueBetween {context : Context} {caller another : Caller}
    (hc : CallsMirror context caller another) (first : Stmt) (e : Expr) (last : Stmt) :
    Mirrors context id (valueBetween caller first e last)
      (valueBetween another first.bare e.bare last.bare) :=
  .bind (mirrors_exec hc first) fun _ => .bind (mirrors_eval hc e) fun _ =>
    .bind (mirrors_exec hc last) fun _ => .pure _

end Evaluation

namespace Script.Program

open Evaluation (CalmOperands mirrors_callNamed mirrors_enter mirrors_eval mirrors_exec
  mirrors_valueBetween)

variable {program : Program} {limits : Limits} {machine : Machine}

/-- In every state that a run reaches, a component is changed in its place as it is by reading it,
computing and storing the result, if the operands and the indices of the place leave all variables as
they are, what these share included. Both ways fault or neither does, unless the budget of operations
ends one of them, and they end with the same result and the same variables: an assignment with an
operator as the assignment of what the operator gives, and a method that is listed as mutating as
the method on a copy of its receiver that is stored back, whatever unused name the copy has. A method
that is not listed gives every receiver back unchanged, and leaves all variables as they are. Trees
count as the same that differ in their places in the source alone. That the stamps of a state were
given by its meter holds at the start and is kept by every step (`issued_eval`, `issued_exec`). -/
theorem in_place_as_stored_back (h : program.Reaches limits machine) (hi : machine.Issued)
    (hd : 1 ≤ limits.valueDepth) (hl : 3 ≤ limits.collection) (remaining : Nat) :
    (∀ (op : AssignOp) (operator : BinaryOp) (place value : Expr) (inPlace stored : Stmt),
      op.operator? = some operator → place.isPlace →
      CalmOperands ⟨program.functions, limits⟩ machine (callNamed (enter remaining))
        (value :: place.indices) →
      inPlace.bare = (Stmt.assign .nowhere place op value).bare →
      stored.bare =
        (Stmt.assign .nowhere place .set (.binary .nowhere operator place value)).bare →
      Act.EndsBoth (fun flow after other last => flow = other ∧ after.SameVariables last)
        ((exec (callNamed (enter remaining)) inPlace).outcome ⟨program.functions, limits⟩ machine)
        ((exec (callNamed (enter remaining)) stored).outcome
          ⟨program.functions, limits⟩ machine)) ∧
    (∀ (method copy : Name) (place : Expr) (args : List Argument) (inPlace onCopy : Expr)
        (copied stored : Stmt),
      Method.mutates method.text → place.isPlace →
      CalmOperands ⟨program.functions, limits⟩ machine (callNamed (enter remaining))
        (args.map Argument.value ++ place.indices) →
      copy.text ∉ place.mentions → copy.text ∉ argumentMentions args →
      inPlace.bare = (Expr.method .nowhere place method args).bare →
      copied.bare = (Stmt.bind .nowhere copy place).bare →
      onCopy.bare = (Expr.method .nowhere (.name .nowhere copy.text) method args).bare →
      stored.bare = (Stmt.assign .nowhere place .set (.name .nowhere copy.text)).bare →
      Act.EndsBoth (fun v after w last => v.Like w ∧ after.SameBeside copy.text last)
        ((eval (callNamed (enter remaining)) inPlace).outcome ⟨program.functions, limits⟩ machine)
        ((valueBetween (callNamed (enter remaining)) copied onCopy stored).outcome
          ⟨program.functions, limits⟩ machine)) ∧
    (∀ (method : String) (receiver : Value) (args : Arguments) (meter after : Meter)
        (found : Value × Value),
      Method.mutates method = false →
      (Method.call receiver method args).outcome limits meter = (.ok found, after) →
      found.1 = receiver) ∧
    ∀ (span : Span) (method : Name) (place : Expr) (args : List Argument),
      Method.mutates method.text = false → place.isPlace →
      CalmOperands ⟨program.functions, limits⟩ machine (callNamed (enter remaining))
        (args.map Argument.value ++ place.indices) →
      Calm ⟨program.functions, limits⟩ machine
        (eval (callNamed (enter remaining)) (.method span place method args)) := by
  have hmirror : Evaluation.CallsMirror ⟨program.functions, limits⟩ (callNamed (enter remaining))
      (callNamed (enter remaining)) := mirrors_callNamed (mirrors_enter remaining)
  refine ⟨?_, ?_, ?_, ?_⟩
  · intro op operator place value inPlace stored hop hp hcalm hfirst hsecond
    have hends := Evaluation.ends_operator hi hop .nowhere .nowhere .nowhere place value hp
      (fun index hindex => hcalm index (List.mem_cons_of_mem _ hindex))
      (hcalm value List.mem_cons_self)
    exact (hends.left (mirrors_exec hmirror _) (hfirst ▸ mirrors_exec hmirror inPlace)).right
      (mirrors_exec hmirror _) (hsecond ▸ mirrors_exec hmirror stored)
  · intro method copy place args inPlace onCopy copied stored hm hp hcalm hkp hka hfirst hcopied
      honCopy hstored
    have hends := Evaluation.ends_copied h hi hd hl hm hp
      (fun index hindex => hcalm index (List.mem_append_right _ hindex))
      (fun arg harg => hcalm arg.value (List.mem_append_left _ (List.mem_map_of_mem harg)))
      copy hkp hka .nowhere
    have hother := mirrors_valueBetween hmirror copied onCopy stored
    rw [hcopied, honCopy, hstored] at hother
    exact (hends.left (mirrors_eval hmirror _) (hfirst ▸ mirrors_eval hmirror inPlace)).right
      (mirrors_valueBetween hmirror _ _ _) hother
  · intro method receiver args meter after found hm hrun
    exact ((Method.yields_unchanged hm receiver args) meter trivial).2 found (congrArg Prod.fst hrun)
  · intro span method place args hm hp hcalm
    exact Evaluation.calm_method hi hm hp
      (fun index hindex => hcalm index (List.mem_append_right _ hindex))
      (fun arg harg => hcalm arg.value (List.mem_append_left _ (List.mem_map_of_mem harg))) span

/-- Limits that let one call be active and lists of three items be stored. -/
def oneList : Limits := ⟨0, 100, 1, 3, 1, 1, 1, 100⟩

/-- A script whose entry point declares a list. -/
def listing : Program :=
  ⟨[.function ⟨⟨"footprint", ⟨3, 12⟩⟩, [],
    .mk ⟨15, 35⟩ [.bind ⟨17, 33⟩ ⟨"xs", ⟨21, 23⟩⟩
      (.list ⟨26, 32⟩ [.int ⟨27, 28⟩ 1, .int ⟨30, 31⟩ 2])], ⟨0, 35⟩⟩]⟩

/-- The state in which the list is declared. -/
def listed : Machine :=
  ⟨[], [⟨[[("xs", .list ⟨[.int 1, .int 2], 1, 0⟩)], []]⟩], ⟨0, Rounds.zero, 0, 0, 1⟩, fun _ => False⟩

/-- The first item of the list, at a place of the source. -/
def firstItem (start : Nat) : Expr :=
  .index ⟨start, start + 5⟩ (.name ⟨start, start + 2⟩ "xs") (.int ⟨start + 3, start + 4⟩ 0)

/-- Five is added to the first item in its place. -/
def adding : Stmt := .assign ⟨0, 10⟩ (firstItem 0) .add (.int ⟨9, 10⟩ 5)

/-- The first item and five are added and stored back. -/
def addingBack : Stmt :=
  .assign ⟨0, 18⟩ (firstItem 0) .set (.binary ⟨8, 17⟩ .add (firstItem 8) (.int ⟨16, 17⟩ 5))

/-- The last item is removed in its place. -/
def removing : Expr := .method ⟨0, 8⟩ (.name ⟨0, 2⟩ "xs") ⟨"pop", ⟨3, 6⟩⟩ []

/-- The last item is removed from a copy. -/
def removingThere : Expr := .method ⟨12, 19⟩ (.name ⟨12, 13⟩ "t") ⟨"pop", ⟨14, 17⟩⟩ []

/-- Five is added to the first item of a list, and the last item is removed. -/
theorem in_place_as_stored_back_listing :
    listing.Reaches oneList listed ∧ listed.Issued ∧
      Act.EndsBoth (fun flow after other last => flow = other ∧ after.SameVariables last)
        ((exec (callNamed (enter 0)) adding).outcome ⟨listing.functions, oneList⟩ listed)
        ((exec (callNamed (enter 0)) addingBack).outcome ⟨listing.functions, oneList⟩ listed) ∧
      ((exec (callNamed (enter 0)) adding).outcome
        ⟨listing.functions, oneList⟩ listed).2.unstamped =
          [⟨[[("xs", .list ⟨[.int 6, .int 2], 1, 0⟩)], []]⟩] ∧
      Act.EndsBoth (fun v after w last => v.Like w ∧ after.SameBeside "t" last)
        ((eval (callNamed (enter 0)) removing).outcome ⟨listing.functions, oneList⟩ listed)
        ((valueBetween (callNamed (enter 0))
          (.bind ⟨0, 11⟩ ⟨"t", ⟨4, 5⟩⟩ (.name ⟨8, 10⟩ "xs")) removingThere
          (.assign ⟨21, 28⟩ (.name ⟨21, 23⟩ "xs") .set (.name ⟨26, 27⟩ "t"))).outcome
            ⟨listing.functions, oneList⟩ listed) ∧
      ((eval (callNamed (enter 0)) removing).outcome
        ⟨listing.functions, oneList⟩ listed).2.unstamped =
          [⟨[[("xs", .list ⟨[.int 1], 1, 0⟩)], []]⟩] := by
  have hreached : listing.Reaches oneList listed :=
    ⟨none, Or.inr (Or.inr (Or.inr (Or.inl rfl)))⟩
  have hissued : listed.Issued := Delay.issued_of_still rfl rfl
  have hcalm : CalmOperands ⟨listing.functions, oneList⟩ listed (callNamed (enter 0))
      [.int ⟨9, 10⟩ 5, .int ⟨3, 4⟩ 0] := by
    intro e he value after hrun
    rcases List.mem_cons.1 he with rfl | hrest
    · exact (congrArg (fun ended => ended.2.frames) hrun).symm
    · rw [List.mem_singleton.1 hrest] at hrun
      exact (congrArg (fun ended => ended.2.frames) hrun).symm
  have hall := in_place_as_stored_back hreached hissued (by decide) (by decide) 0
  have hadded := hall.1 .add .add (firstItem 0) (.int ⟨9, 10⟩ 5) adding addingBack rfl rfl hcalm
    rfl rfl
  have hremoved := hall.2.1 ⟨"pop", ⟨3, 6⟩⟩ ⟨"t", ⟨4, 5⟩⟩ (.name ⟨0, 2⟩ "xs") [] removing
    removingThere (.bind ⟨0, 11⟩ ⟨"t", ⟨4, 5⟩⟩ (.name ⟨8, 10⟩ "xs"))
    (.assign ⟨21, 28⟩ (.name ⟨21, 23⟩ "xs") .set (.name ⟨26, 27⟩ "t")) rfl rfl
    (fun _ he => absurd he List.not_mem_nil) (by decide) (by decide) rfl rfl rfl rfl
  exact ⟨hreached, hissued, hadded, rfl, hremoved, rfl⟩

/-- A script whose entry point declares a list of one float that is not a number, its copy, and a
list of two integers. -/
def copying : Program :=
  ⟨[.function ⟨⟨"footprint", .nowhere⟩, [], .mk .nowhere
    [.bind .nowhere ⟨"x", .nowhere⟩ (.list .nowhere [.float .nowhere (0 / 0)]),
      .bind .nowhere ⟨"y", .nowhere⟩ (.name .nowhere "x"),
      .bind .nowhere ⟨"p", .nowhere⟩ (.list .nowhere [.int .nowhere 0, .int .nowhere 10])],
    .nowhere⟩]⟩

/-- The state in which the lists are declared: the first two share their items. -/
def copied : Machine :=
  ⟨[], [⟨[[("x", .list ⟨[.float (0 / 0)], 1, 0⟩), ("y", .list ⟨[.float (0 / 0)], 1, 0⟩),
    ("p", .list ⟨[.int 0, .int 10], 1, 1⟩)], []]⟩], ⟨0, Rounds.zero, 0, 0, 2⟩, fun _ => False⟩

/-- An item is added to `x` and removed again, and is the value. -/
def addedAndRemoved : Expr :=
  .index .nowhere (.list .nowhere
    [.method .nowhere (.name .nowhere "x") ⟨"append", .nowhere⟩ [.positional (.int .nowhere 1)],
      .method .nowhere (.name .nowhere "x") ⟨"pop", .nowhere⟩ []]) (.int .nowhere 1)

/-- Whether `x` equals `y`, as an index. -/
def sameLists : Expr :=
  .call .nowhere (.name .nowhere "int")
    [.positional (.binary .nowhere .eq (.name .nowhere "x") (.name .nowhere "y"))]

/-- The integers in the list that `p` holds. -/
def integers (machine : Machine) : Option (List Int) :=
  ((held? machine "p").bind Value.sequence?).map fun s => s.items.filterMap Value.int?

/-- Operands that leave all variables as they are, but not what these share, are not enough: where a
list equals its copy and does not equal itself item by item, an index that asks for it is another one
before the operand than behind it. -/
theorem stored_back_otherwise :
    copying.Reaches Limits.standard copied ∧ copied.Issued ∧
      (∀ e ∈ [addedAndRemoved, sameLists], ((eval (callNamed (enter 0)) e).outcome
        ⟨copying.functions, Limits.standard⟩ copied).2.unstamped = copied.unstamped) ∧
      integers ((exec (callNamed (enter 0)) (.assign .nowhere
        (.index .nowhere (.name .nowhere "p") sameLists) .add addedAndRemoved)).outcome
          ⟨copying.functions, Limits.standard⟩ copied).2 = some [1, 10] ∧
      integers ((exec (callNamed (enter 0)) (.assign .nowhere
        (.index .nowhere (.name .nowhere "p") sameLists) .set (.binary .nowhere .add
          (.index .nowhere (.name .nowhere "p") sameLists) addedAndRemoved))).outcome
            ⟨copying.functions, Limits.standard⟩ copied).2 = some [11, 10] := by
  have hreached : copying.Reaches Limits.standard copied :=
    ⟨none, Or.inr (Or.inr (Or.inr (Or.inl rfl)))⟩
  have hissued : copied.Issued := Delay.issued_of_still rfl rfl
  refine ⟨hreached, hissued, fun e he => ?_, by decide +kernel, by decide +kernel⟩
  rcases List.mem_cons.1 he with rfl | hrest
  · rfl
  · rw [List.mem_singleton.1 hrest]
    rfl

end Script.Program

end LandPattern
