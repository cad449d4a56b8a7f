import LandPattern.Proofs.Run.Contents
import LandPattern.Proofs.Run.Ensures
import LandPattern.Proofs.Script.Texts
import LandPattern.Proofs.Values.Bindings

/-!
# Lasting properties of values

A property of values that the texts of a script have, and that everything a script can do with
values keeps, holds of every value that is stored, passed or computed at any moment of a run.
-/

namespace LandPattern

open Script (Argument Block Branch Expr Function Item Program Span Stmt)

/-- Whatever a script does with good values gives good values. -/
structure Value.Lasting (context : Context) (good : Value → Prop) : Prop where
  nothing : good .nothing
  bool (b : Bool) : good (.bool b)
  int (n : Int) : good (.int n)
  float (x : Float) : good (.float x)
  builtin (word : Builtin) : good (.builtin word)
  function {name : String} (h : (context.function? name).isSome) : good (.function name)
  items {v : Value} {s : Sequence Value} (h : good v) (hs : v.sequence? = some s) :
    ∀ item ∈ s.items, good item
  collected {values : List Value} (h : ∀ v ∈ values, good v) :
    Metered.Yields context.limits
      (do
        let s ← Metered.sequence values
        Metered.checkSequence s
        return s)
      fun s => good (.list s) ∧ good (.tuple s)
  combine (op : Script.BinaryOp) {a b : Value} (ha : good a) (hb : good b) :
    Metered.Yields context.limits (a.combine op b) good
  call (word : Builtin) {args : Arguments} (ha : args.All good) :
    Metered.Yields context.limits (word.call args) good
  method {receiver : Value} (name : String) {args : Arguments} (hr : good receiver)
    (ha : args.All good) :
    Metered.Yields context.limits (Method.call receiver name args) fun found => good found.2
  readField {v : Value} (field : String) (h : good v) :
    Metered.Yields context.limits (v.readField field) good
  readIndex {v item : Value} {index : Int} (h : good v) (hi : v.readIndex index = .ok item) :
    good item
  /-- A method that changes a component leaves a good value and gives one back. -/
  mutated {root : Value} (steps : List Step) (name : String) {args : Arguments} (hr : good root)
    (ha : args.All good) :
    Metered.Yields context.limits
      (root.updateWithin steps fun old => Method.call old name args)
      fun written => good written.1 ∧ good written.2
  /-- An assignment to a component leaves a good value. -/
  stored {root v : Value} (steps : List Step) (op : Script.AssignOp) (hr : good root)
    (hv : good v) :
    Metered.Yields context.limits
      (root.updateWithin steps fun old => do return (← old.assigned op v, ()))
      fun written => good written.1

theorem Value.Lasting.negate {context : Context} {good : Value → Prop}
    (hg : Value.Lasting context good) {v w : Value} (hw : v.negate = .ok w) : good w := by
  unfold Value.negate at hw
  split at hw
  · split at hw
    · cases hw
      exact hg.int _
    · cases hw
  · cases hw
    exact hg.float _
  · cases hw

/-- A flow that ends the function carries a good value. -/
def Flow.All (good : Value → Prop) : Flow → Prop
  | .next => True
  | .giveBack v => good v

namespace Evaluation

variable {context : Context} {good : Value → Prop} {α : Type} {promise : α → Prop}

/-- From good values to good values, with a result as promised. -/
abbrev Keeps (context : Context) (good : Value → Prop) (act : Evaluation α) (promise : α → Prop) :
    Prop :=
  Act.Ensures context (Machine.All good) act promise

theorem keeps_ofMetered {act : Metered α} (h : Metered.Yields context.limits act promise) :
    Keeps context good (ofMetered act) promise :=
  ensures_ofMetered (fun _ meter hmachine => hmachine.withMeter meter) h

theorem keeps_counted {act : Evaluation α} (h : Keeps context good act promise) :
    Keeps context good (counted act) promise :=
  ensures_counted (fun _ meter hmachine => hmachine.withMeter meter) h

theorem keeps_any {act : Metered α} : Keeps context good (ofMetered act) fun _ => True :=
  keeps_ofMetered (Metered.yields_any act)

theorem keeps_noting {act : Evaluation Value} (h : Keeps context good act good) :
    Keeps context good (noting act) good := by
  refine .bind h fun v hv => .bind (.modify fun machine hmachine => ?_) fun _ _ => .pure hv
  exact hmachine.noted fun w hw => Option.some.inj hw ▸ hv

theorem keeps_consult
    {look : (String → Option Function) → Scope → Option Locals → Except Refusal α}
    (h : ∀ globals locals value, Scope.All good globals →
      (∀ found, locals = some found → Locals.All good found) →
      look context.function? globals locals = .ok value → promise value) :
    Keeps context good (consult look) promise :=
  ensures_consult fun machine hmachine value hvalue =>
    h machine.globals machine.frames.head? value hmachine.now.globals
      (fun found hfound => hmachine.now.frames found (List.mem_of_mem_head? hfound)) hvalue

/-- The variables of the innermost call are changed, those of the others stay. -/
theorem all_changeLocals {change : Locals → Locals} {machine : Machine} {locals : Locals}
    {outer : List Locals} (h : locals.All good → (change locals).All good)
    (hf : machine.frames = locals :: outer) (hm : machine.All good) :
    (machine.withFrames (change locals :: outer)).All good := by
  have hframes : ∀ found ∈ machine.frames, found.All good := hm.now.frames
  rw [hf] at hframes
  refine hm.withFrames fun found hfound => ?_
  rcases List.mem_cons.1 hfound with rfl | hold
  · exact h (hframes locals List.mem_cons_self)
  · exact hframes found (List.mem_cons_of_mem _ hold)

theorem keeps_modifyLocals {change : Locals → Locals}
    (h : ∀ locals, Locals.All good locals → Locals.All good (change locals)) :
    Keeps context good (modifyLocals change) fun _ => True :=
  ensures_modifyLocals fun _ locals _ hf hm => all_changeLocals (h locals) hf hm

theorem keeps_inBlock {act : Evaluation α} (h : Keeps context good act promise) :
    Keeps context good (inBlock act) promise :=
  ensures_inBlock (fun _ _ _ hf hm => all_changeLocals Locals.All.push hf hm)
    (fun _ _ _ hf hm => all_changeLocals Locals.All.pop hf hm) h

theorem keeps_inCall {locals : Locals} {act : Evaluation α} (hl : locals.All good)
    (h : Keeps context good act promise) : Keeps context good (inCall locals act) promise := by
  refine .bind (.modify fun machine hmachine => ?_) fun _ _ => .closing (fun machine hmachine => ?_) h
  · refine hmachine.withFrames fun found hfound => ?_
    rcases List.mem_cons.1 hfound with rfl | hold
    · exact hl
    · exact hmachine.now.frames found hold
  · exact hmachine.withFrames fun found hfound =>
      hmachine.now.frames found (List.mem_of_mem_tail hfound)

theorem keeps_updatePlace (place : Place) {write : Value → Metered (Value × α)}
    (hw : ∀ root, good root → Metered.Yields context.limits (root.updateWithin place.steps write)
      fun written => good written.1 ∧ promise written.2) :
    Keeps context good (updatePlace place write) promise := by
  have hlocal : Keeps context good (local? place.root) fun found =>
      ∀ v, found = some v → good v := by
    refine keeps_consult fun globals locals found _ hlocals heq v hv => ?_
    cases heq
    obtain ⟨frame, hframe, hget⟩ := Option.bind_eq_some_iff.1 hv
    exact (hlocals frame hframe).get? hget
  refine .bind hlocal fun found hfound => ?_
  cases found with
  | none =>
    have hwhy : Keeps context good (notWritable place.root) fun _ => True :=
      keeps_consult fun _ _ _ _ _ _ => trivial
    exact .bind hwhy fun _ _ => .fault _
  | some root =>
    refine .bind (keeps_ofMetered (hw root (hfound root rfl))) fun written hwritten => ?_
    exact .bind (keeps_modifyLocals fun _ hlocals => hlocals.set hwritten.1) fun _ _ =>
      .pure hwritten.2

theorem keeps_rounds {each : Rounds} {body : Value → Evaluation Flow} {items : List Value}
    (hi : ∀ item ∈ items, good item)
    (h : ∀ item, good item → Keeps context good (body item) (Flow.All good)) :
    Keeps context good (rounds each body items) (Flow.All good) :=
  ensures_rounds keeps_any trivial fun item hitem => h item (hi item hitem)

section Steps

variable (hg : Value.Lasting context good)

include hg

theorem keeps_lookup (name : String) : Keeps context good (lookup name) good := by
  refine keeps_consult fun globals locals v hglobals hlocals hv => ?_
  split at hv
  · rename_i w hw
    cases hv
    obtain ⟨found, hfound, hget⟩ := Option.bind_eq_some_iff.1 hw
    exact (hlocals found hfound).get? hget
  · rename_i hglobal
    cases hv
    exact hglobals.lookup hglobal
  · split at hv
    · cases hv
      exact hg.function ‹_›
    · split at hv
      · cases hv
        exact hg.builtin _
      · cases hv

theorem keeps_negate {v : Value} : Keeps context good (Act.ofExcept v.negate) good :=
  .ofExcept fun _ => hg.negate

theorem keeps_iterated (span : Span) {v : Value} (hv : good v) :
    Keeps context good (iterated span v) fun items => ∀ item ∈ items, good item := by
  refine (ensures_iterated span v).weaken fun items hitems => ?_
  obtain ⟨s, hs, rfl⟩ := hitems
  exact hg.items hv hs

theorem keeps_collected (length : Nat) {items : Evaluation (List Value)}
    (h : Keeps context good items fun values => ∀ v ∈ values, good v) :
    Keeps context good (collected length items) fun s => good (.list s) ∧ good (.tuple s) :=
  .bind keeps_any fun _ _ => .bind h fun _ hvalues => keeps_ofMetered (hg.collected hvalues)

theorem keeps_store (place : Place) (op : Script.AssignOp) {v : Value} (hv : good v) :
    Keeps context good (store place op v) fun _ => True :=
  keeps_updatePlace place fun _ hroot =>
    (hg.stored place.steps op hroot hv).weaken fun _ hwritten => ⟨hwritten, trivial⟩

end Steps

/-- Calls of functions keep the property. -/
def CallsKeep (context : Context) (good : Value → Prop) (caller : Caller) : Prop :=
  ∀ name args span, args.All good → Keeps context good (caller name args span) good

section Trees

variable {caller : Caller}

theorem keeps_apply (hg : Value.Lasting context good) (hc : CallsKeep context good caller)
    {callee : Value} (calleeSpan : Span) {args : Arguments} (callSpan : Span) (ha : args.All good) :
    Keeps context good (apply caller callee calleeSpan args callSpan) good := by
  cases callee with
  | builtin word => exact keeps_ofMetered (hg.call word ha)
  | function name => exact hc name args callSpan ha
  | _ => exact .fault _

mutual

/-- The value of an expression is good, and so is everything on the way to it. -/
theorem keeps_eval (hg : Value.Lasting context good)
    (hc : CallsKeep context good caller) (e : Expr) (ht : ∀ text ∈ e.texts, good (.text text)) :
    Keeps context good (eval caller e) good := by
  unfold eval
  refine keeps_counted (.mapFault (keeps_noting (.bind keeps_any fun _ _ => ?_)))
  match e with
  | .int _ n => exact .pure (hg.int n)
  | .float _ x => exact .pure (hg.float x)
  | .text _ s => exact .pure (ht s List.mem_cons_self)
  | .bool _ b => exact .pure (hg.bool b)
  | .none _ => exact .pure hg.nothing
  | .name _ name => exact keeps_lookup hg name
  | .list _ items =>
    exact .bind (keeps_collected hg _ (keeps_evalAll hg hc items ht)) fun _ hs => .pure hs.1
  | .tuple _ items =>
    exact .bind (keeps_collected hg _ (keeps_evalAll hg hc items ht)) fun _ hs => .pure hs.2
  | .unary _ .neg operand => exact .bind (keeps_eval hg hc operand ht) fun _ _ => keeps_negate hg
  | .unary _ .not operand =>
    exact .bind (keeps_eval hg hc operand ht) fun v _ => .bind (ensures_truth _ _ v) fun _ _ =>
      .pure (hg.bool _)
  | .binary _ op left right =>
    have hl := keeps_eval hg hc left fun text htext => ht text (List.mem_append_left _ htext)
    have hr := keeps_eval hg hc right fun text htext => ht text (List.mem_append_right _ htext)
    cases op with
    | and =>
      refine .bind hl fun v _ => .bind (ensures_truth _ _ v) fun b _ => ?_
      cases b with
      | true => exact .bind hr fun w _ => .bind (ensures_truth _ _ w) fun _ _ => .pure (hg.bool _)
      | false => exact .pure (hg.bool _)
    | or =>
      refine .bind hl fun v _ => .bind (ensures_truth _ _ v) fun b _ => ?_
      cases b with
      | true => exact .pure (hg.bool _)
      | false => exact .bind hr fun w _ => .bind (ensures_truth _ _ w) fun _ _ => .pure (hg.bool _)
    | _ =>
      exact .bind hl fun a ha => .bind hr fun b hb => keeps_ofMetered (hg.combine _ ha hb)
  | .call span callee args =>
    have hcallee := keeps_eval hg hc callee fun text htext => ht text (List.mem_append_left _ htext)
    have hargs := keeps_evalArgs hg hc .empty args .empty
      fun text htext => ht text (List.mem_append_right _ htext)
    exact .bind hcallee fun _ _ => .bind hargs fun _ ha => keeps_apply hg hc _ _ ha
  | .method _ receiver method args =>
    have hargs := keeps_evalArgs hg hc .empty args .empty
      fun text htext => ht text (List.mem_append_right _ htext)
    have hr : ∀ text ∈ receiver.texts, good (.text text) :=
      fun text htext => ht text (List.mem_append_left _ htext)
    refine .mapFault (.ite (fun _ => ?_) fun _ => ?_)
    · exact .bind (keeps_resolve hg hc receiver hr) fun place _ => .bind hargs fun _ ha =>
        keeps_updatePlace place fun _ hroot => hg.mutated place.steps method.text hroot ha
    · exact .bind (keeps_eval hg hc receiver hr) fun _ hobject => .bind hargs fun _ ha =>
        .bind (keeps_ofMetered (hg.method method.text hobject ha)) fun _ hfound => .pure hfound
  | .field _ object field =>
    exact .bind (keeps_eval hg hc object ht) fun _ hv => .mapFault
      (keeps_ofMetered (hg.readField field.text hv))
  | .index _ object index =>
    have ho := keeps_eval hg hc object fun text htext => ht text (List.mem_append_left _ htext)
    have hi := keeps_eval hg hc index fun text htext => ht text (List.mem_append_right _ htext)
    exact .bind ho fun _ hv => .bind hi fun w _ => .bind (ensures_position _ w) fun _ _ =>
      .mapFault (.ofExcept fun _ hitem => hg.readIndex hv hitem)
termination_by structural e

theorem keeps_evalAll (hg : Value.Lasting context good)
    (hc : CallsKeep context good caller) (items : List Expr)
    (ht : ∀ text ∈ Script.itemTexts items, good (.text text)) :
    Keeps context good (evalAll caller items) fun values => ∀ v ∈ values, good v := by
  match items with
  | [] => exact .pure fun _ h => absurd h List.not_mem_nil
  | e :: rest =>
    have hfirst := keeps_eval hg hc e fun text htext => ht text (List.mem_append_left _ htext)
    have hrest := keeps_evalAll hg hc rest fun text htext => ht text (List.mem_append_right _ htext)
    refine .bind hfirst fun v hv => .bind hrest fun vs hvs => .pure fun w hw => ?_
    rcases List.mem_cons.1 hw with rfl | htail
    · exact hv
    · exact hvs w htail
termination_by structural items

theorem keeps_evalArgs (hg : Value.Lasting context good)
    (hc : CallsKeep context good caller) (done : Arguments) (args : List Argument) (hd : done.All good)
    (ht : ∀ text ∈ Script.argumentTexts args, good (.text text)) :
    Keeps context good (evalArgs caller done args) (Arguments.All good) := by
  match args with
  | [] => exact .pure hd
  | .positional e :: rest =>
    have hfirst := keeps_eval hg hc e fun text htext => ht text (List.mem_append_left _ htext)
    exact .bind hfirst fun v hv => keeps_evalArgs hg hc (done.add v) rest (hd.add hv)
      fun text htext => ht text (List.mem_append_right _ htext)
  | .keyword name e :: rest =>
    have hfirst := keeps_eval hg hc e fun text htext => ht text (List.mem_append_left _ htext)
    refine .bind hfirst fun v hv => .bind (.mapFault (.ofExcept fun _ hmore =>
      hd.addKeyword hv hmore)) fun more hmore => ?_
    exact keeps_evalArgs hg hc more rest hmore fun text htext =>
      ht text (List.mem_append_right _ htext)
termination_by structural args

theorem keeps_resolve (hg : Value.Lasting context good)
    (hc : CallsKeep context good caller) (e : Expr) (ht : ∀ text ∈ e.texts, good (.text text)) :
    Keeps context good (resolve caller e) fun _ => True := by
  match e with
  | .name span name => exact .pure trivial
  | .field _ object field => exact .bind (keeps_resolve hg hc object ht) fun _ _ => .pure trivial
  | .index _ object index =>
    have ho := keeps_resolve hg hc object fun text htext => ht text (List.mem_append_left _ htext)
    have hi := keeps_eval hg hc index fun text htext => ht text (List.mem_append_right _ htext)
    exact .bind ho fun _ _ => .bind hi fun v _ => .bind (ensures_position _ v) fun _ _ =>
      .pure trivial
  | .int _ _ | .float _ _ | .text _ _ | .bool _ _ | .none _ | .list _ _ | .tuple _ _
  | .unary _ _ _ | .binary _ _ _ _ | .call _ _ _ | .method _ _ _ _ => exact .fault _
termination_by structural e

end

mutual

/-- What a statement gives back is good, and so is everything it does. -/
theorem keeps_exec (hg : Value.Lasting context good) (hc : CallsKeep context good caller) (s : Stmt)
    (ht : ∀ text ∈ s.texts, good (.text text)) :
    Keeps context good (exec caller s) (Flow.All good) := by
  unfold exec
  refine keeps_counted (.bind (.mapFault keeps_any) fun _ _ => ?_)
  match s with
  | .bind _ name value =>
    exact .bind (keeps_eval hg hc value ht) fun v hv =>
      .bind (keeps_modifyLocals fun _ hlocals => hlocals.declare hv) fun _ _ => .pure trivial
  | .assign _ target op value =>
    have hplace := keeps_resolve hg hc target fun text htext =>
      ht text (List.mem_append_left _ htext)
    have hvalue := keeps_eval hg hc value fun text htext =>
      ht text (List.mem_append_right _ htext)
    exact .bind hvalue fun v hv => .bind hplace fun place _ =>
      .bind (.mapFault (keeps_store hg place op hv)) fun _ _ => .pure trivial
  | .expr _ value => exact .bind (keeps_eval hg hc value ht) fun _ _ => .pure trivial
  | .giveBack _ none => exact .pure hg.nothing
  | .giveBack _ (some value) => exact .bind (keeps_eval hg hc value ht) fun _ hv => .pure hv
  | .choose _ branches otherwise =>
    have hb := keeps_execBranches hg hc branches fun text htext =>
      ht text (List.mem_append_left _ htext)
    refine .bind hb fun found hfound => ?_
    cases found with
    | some flow => exact .pure (hfound flow rfl)
    | none =>
      exact keeps_execOtherwise hg hc otherwise fun text htext =>
        ht text (List.mem_append_right _ htext)
  | .loop _ var iterable (.mk _ body) =>
    have hi := keeps_eval hg hc iterable fun text htext => ht text (List.mem_append_left _ htext)
    have hbody := keeps_execAll hg hc body fun text htext => ht text (List.mem_append_right _ htext)
    refine .bind hi fun v hv => .bind (keeps_iterated hg _ hv) fun items hitems => ?_
    exact keeps_rounds hitems fun item hitem => keeps_inBlock <|
      .bind (keeps_modifyLocals fun _ hlocals => hlocals.declare hitem) fun _ _ => hbody
termination_by structural s

theorem keeps_execBranches (hg : Value.Lasting context good) (hc : CallsKeep context good caller)
    (branches : List Branch) (ht : ∀ text ∈ Script.branchTexts branches, good (.text text)) :
    Keeps context good (execBranches caller branches) fun found =>
      ∀ flow, found = some flow → flow.All good := by
  match branches with
  | [] => exact .pure fun _ heq => (by cases heq)
  | .mk condition block :: rest =>
    have hfront : ∀ text ∈ condition.texts ++ block.texts, good (.text text) :=
      fun text htext => ht text (List.mem_append_left _ htext)
    have hcondition := keeps_eval hg hc condition fun text htext =>
      hfront text (List.mem_append_left _ htext)
    have hblock := keeps_execBlock hg hc block fun text htext =>
      hfront text (List.mem_append_right _ htext)
    refine .bind hcondition fun v _ => .bind (ensures_truth _ _ v) fun b _ => ?_
    cases b with
    | true =>
      exact .bind hblock fun flow hflow => .pure fun _ heq => Option.some.inj heq ▸ hflow
    | false =>
      exact keeps_execBranches hg hc rest fun text htext =>
        ht text (List.mem_append_right _ htext)
termination_by structural branches

theorem keeps_execOtherwise (hg : Value.Lasting context good) (hc : CallsKeep context good caller)
    (otherwise : Option Block) (ht : ∀ text ∈ Script.otherwiseTexts otherwise, good (.text text)) :
    Keeps context good (execOtherwise caller otherwise) (Flow.All good) := by
  match otherwise with
  | none => exact .pure trivial
  | some block => exact keeps_execBlock hg hc block ht
termination_by structural otherwise

theorem keeps_execBlock (hg : Value.Lasting context good) (hc : CallsKeep context good caller)
    (block : Block) (ht : ∀ text ∈ block.texts, good (.text text)) :
    Keeps context good (execBlock caller block) (Flow.All good) := by
  match block with
  | .mk _ statements => exact keeps_inBlock (keeps_execAll hg hc statements ht)
termination_by structural block

theorem keeps_execAll (hg : Value.Lasting context good) (hc : CallsKeep context good caller)
    (statements : List Stmt) (ht : ∀ text ∈ Script.statementTexts statements, good (.text text)) :
    Keeps context good (execAll caller statements) (Flow.All good) := by
  match statements with
  | [] => exact .pure trivial
  | s :: rest =>
    have hfirst := keeps_exec hg hc s fun text htext => ht text (List.mem_append_left _ htext)
    have hrest := keeps_execAll hg hc rest fun text htext => ht text (List.mem_append_right _ htext)
    refine .bind hfirst fun flow hflow => ?_
    cases flow with
    | giveBack v => exact .pure hflow
    | next => exact hrest
termination_by structural statements

end

end Trees

section Programs

/-- Every function of the context is entered with good values and gives back a good one. -/
def EntersKeep (context : Context) (good : Value → Prop) (enter : Entrance) : Prop :=
  ∀ function ∈ context.functions, ∀ params span, Scope.All good params →
    Keeps context good (enter function params span) good

/-- The variables that a call starts with are its arguments. -/
theorem all_bindParams {function : Function} {args : Arguments} {scope : Scope}
    (ha : args.All good) (hs : bindParams function args = .ok scope) : scope.All good := by
  have hreads : Binding.Reads good
      ((function.params.map Script.Name.text).foldlM (fun (scope : Scope) param => do
        let v ← Binding.required param fun v _ => pure v
        return scope.declare param v) []) (Scope.All good) := by
    refine Binding.reads_foldl (fun _ h => absurd h List.not_mem_nil) fun done param _ hdone => ?_
    have hparam : Binding.Reads good (Binding.required param fun v _ => pure v) good :=
      Binding.reads_required fun v w hv hw => (by cases hw; exact hv)
    exact Binding.reads_bind hparam fun v hv => Binding.reads_pure (hdone.declare hv)
  exact Binding.run_reads hreads ha hs

theorem keeps_callNamed {enter : Entrance} (he : EntersKeep context good enter) :
    CallsKeep context good (callNamed enter) := by
  intro name args span ha
  exact ensures_callNamed fun function hmem params hparams =>
    he function hmem params span (all_bindParams ha hparams)

/-- The texts in the functions of a context are good. -/
def FunctionTexts (context : Context) (good : Value → Prop) : Prop :=
  ∀ function ∈ context.functions, ∀ text ∈ function.body.texts, good (.text text)

/-- However many calls may still be opened, functions keep the property. -/
theorem keeps_enter (hg : Value.Lasting context good) (hf : FunctionTexts context good)
    (remaining : Nat) : EntersKeep context good (enter remaining) := by
  induction remaining with
  | zero => exact fun _ _ _ span _ => ensures_refuseCall span
  | succ rest ih =>
    intro function hmem params span hparams
    have hbody := keeps_execBlock hg (keeps_callNamed ih) function.body (hf function hmem)
    exact ensures_runBody (keeps_inCall (Locals.All.ofParams hparams) hbody) (fun _ hv => hv)
      hg.nothing

theorem keeps_loadConstants (hg : Value.Lasting context good) {caller : Caller}
    (hc : CallsKeep context good caller) (items : List Item)
    (ht : ∀ item ∈ items, ∀ text ∈ item.texts, good (.text text)) :
    Keeps context good (loadConstants caller items) fun _ => True :=
  ensures_loadConstants (fun _ value hmem => keeps_eval hg hc value (ht _ hmem))
    fun _ _ _ hmachine hv => hmachine.withGlobals (hmachine.now.globals.declare hv)

theorem keeps_callEntryPoint {enter : Entrance} (he : EntersKeep context good enter)
    (program : Program) : Keeps context good (callEntryPoint enter program) good :=
  ensures_callEntryPoint fun function hmem =>
    he function hmem [] function.name.span fun _ h => absurd h List.not_mem_nil

end Programs

end Evaluation

/-- What the entry point gives back, once the constants are evaluated. -/
def Evaluation.entryValue (enter : Evaluation.Entrance) (program : Program) : Evaluation Value := do
  loadConstants (callNamed enter) program.items
  callEntryPoint enter program

theorem Evaluation.runProgram_eq (enter : Evaluation.Entrance) (program : Program) :
    runProgram enter program = entryValue enter program >>= collect := by
  rw [runProgram, entryValue, bind_assoc]

/-- A run keeps a lasting property that the texts of the script have, and the entry point gives back
a value with the property. -/
theorem Script.Program.keeps_entryValue {program : Program} {limits : Limits}
    {good : Value → Prop} (hg : Value.Lasting ⟨program.functions, limits⟩ good)
    (ht : ∀ text ∈ program.texts, good (.text text)) :
    Evaluation.Keeps ⟨program.functions, limits⟩ good
      (Evaluation.entryValue (Evaluation.enter limits.callDepth) program) good := by
  have hitems : ∀ item ∈ program.items, ∀ text ∈ item.texts, good (.text text) :=
    fun item hitem text htext => ht text (List.mem_flatMap.2 ⟨item, hitem, htext⟩)
  have hfunctions : Evaluation.FunctionTexts ⟨program.functions, limits⟩ good := by
    intro function hmem text htext
    obtain ⟨item, hitem, heq⟩ := List.mem_filterMap.1 hmem
    cases item with
    | constant name value => cases heq
    | function definition =>
      cases heq
      exact hitems _ hitem text htext
  have henter := Evaluation.keeps_enter hg hfunctions limits.callDepth
  exact .bind (Evaluation.keeps_loadConstants hg (Evaluation.keeps_callNamed henter) _ hitems)
    fun _ _ => Evaluation.keeps_callEntryPoint henter program

/-- The elements of a run are taken from a value with the property. -/
theorem Script.Program.keeps_run {program : Program} {limits : Limits} {good : Value → Prop}
    (hg : Value.Lasting ⟨program.functions, limits⟩ good)
    (ht : ∀ text ∈ program.texts, good (.text text)) :
    Evaluation.Keeps ⟨program.functions, limits⟩ good
      (Evaluation.runProgram (Evaluation.enter limits.callDepth) program) fun elements =>
        ∃ v, good v ∧ v.elements limits.collection = .ok elements := by
  rw [Evaluation.runProgram_eq]
  exact .bind (keeps_entryValue hg ht) fun v hv =>
    (Evaluation.ensures_collect v).weaken fun _ helements => ⟨v, hv, helements⟩

/-- All values at all moments of a run have a lasting property that the texts of the script have. -/
theorem Script.Program.run_lasting {program : Program} {limits : Limits} {good : Value → Prop}
    (hg : Value.Lasting ⟨program.functions, limits⟩ good)
    (ht : ∀ text ∈ program.texts, good (.text text)) : (program.run limits).2.All good :=
  (keeps_run hg ht Machine.start Machine.All.start).1

/-- The elements of a run are those of a value with the property. -/
theorem Script.Program.run_elements {program : Program} {limits : Limits} {good : Value → Prop}
    (hg : Value.Lasting ⟨program.functions, limits⟩ good)
    (ht : ∀ text ∈ program.texts, good (.text text)) {elements : List Element}
    (h : (program.run limits).1 = .ok elements) :
    ∃ v, good v ∧ v.elements limits.collection = .ok elements :=
  (keeps_run hg ht Machine.start Machine.All.start).2 elements h

end LandPattern
