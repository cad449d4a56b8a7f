import LandPattern.Proofs.Run.Postponing

/-!
# Evaluations at a later moment

An expression that is evaluated later, with the same variables and constants, has the same value up to
the stamps that are given meanwhile, or ends with a fault where it ended with a fault before. Calls of
functions have variables of their own, so that of the caller's variables only those count which the
expression itself names.
-/

namespace LandPattern

open Script (Argument AssignOp BinaryOp Block Branch Expr Function Name Span Stmt UnaryOp)

namespace Script

mutual

/-- The names that an expression mentions. -/
def Expr.mentions (e : Expr) : List String :=
  match e with
  | .name _ word => [word]
  | .list _ items | .tuple _ items => itemMentions items
  | .unary _ _ operand => operand.mentions
  | .binary _ _ left right => left.mentions ++ right.mentions
  | .call _ callee args => callee.mentions ++ argumentMentions args
  | .method _ receiver _ args => receiver.mentions ++ argumentMentions args
  | .field _ object _ => object.mentions
  | .index _ object position => object.mentions ++ position.mentions
  | _ => []
termination_by structural e

/-- The names that items mention. -/
def itemMentions (items : List Expr) : List String :=
  match items with
  | [] => []
  | e :: rest => e.mentions ++ itemMentions rest
termination_by structural items

/-- The names that arguments mention. -/
def argumentMentions (args : List Argument) : List String :=
  match args with
  | [] => []
  | .positional e :: rest => e.mentions ++ argumentMentions rest
  | .keyword _ e :: rest => e.mentions ++ argumentMentions rest
termination_by structural args

end

theorem Expr.root_subset_mentions (e : Expr) : ∀ name ∈ e.root, name ∈ e.mentions := by
  cases e with
  | name _ _ => exact fun _ => id
  | field _ object _ => exact object.root_subset_mentions
  | index _ object _ =>
    exact fun name hname => List.mem_append_left _ (object.root_subset_mentions name hname)
  | _ => exact fun _ hname => absurd hname List.not_mem_nil
termination_by structural e

end Script

namespace Evaluation

open Act.Follows (ofExcept)

variable {delay : Delay} {context : Context} {near : List Locals → List Locals → Prop}
  {globals : Scope} {known : String → Prop} {caller : Caller}

/-- Whatever variables are around them, calls of functions follow. -/
def CallsFollow (delay : Delay) (context : Context) (globals : Scope) (caller : Caller) : Prop :=
  ∀ near name args span, Follows delay context near globals delay.value (caller name args span)
    (caller name (args.restamp delay.stamp) span)

/-- What is resolved starts at the variable that is written to. -/
theorem ensures_resolve (e : Expr) :
    Act.Ensures context (fun _ => True) (resolve caller e) fun place => place.root ∈ e.root := by
  have hany {α : Type} (act : Evaluation α) :
      Act.Ensures context (fun _ => True) act fun _ => True := fun _ _ => ⟨trivial, fun _ _ => trivial⟩
  cases e with
  | name span name => exact .pure (List.mem_singleton.2 rfl)
  | field _ object field => exact .bind (ensures_resolve object) fun place hplace => .pure hplace
  | index _ object index =>
    exact .bind (ensures_resolve object) fun place hplace => .bind (hany _) fun _ _ =>
      .bind (hany _) fun _ _ => .pure hplace
  | _ => exact .fault _
termination_by structural e

theorem follows_apply (hc : CallsFollow delay context globals caller) (callee : Value)
    (calleeSpan : Span) (args : Arguments) (callSpan : Span) :
    Follows delay context near globals delay.value (apply caller callee calleeSpan args callSpan)
      (apply caller (delay.value callee) calleeSpan (args.restamp delay.stamp) callSpan) := by
  cases callee with
  | builtin word => exact follows_ofMetered (Metered.follows_call word args)
  | function name => exact hc near name args callSpan
  | _ => exact follows_refuseAt _ _ _

mutual

/-- An expression follows, if the names that it mentions are known. -/
theorem follows_eval (hc : CallsFollow delay context globals caller)
    (hl : delay.Links near known) (e : Expr) (hk : ∀ name ∈ e.mentions, known name) :
    Follows delay context near globals delay.value (eval caller e) (eval caller e) := by
  unfold eval
  refine follows_counted (follows_locating _ (follows_noting
    (.bind (follows_ofMetered (Metered.follows_charge 1)) fun _ => ?_)))
  match e with
  | .int _ _ | .float _ _ | .text _ _ | .bool _ _ | .none _ => exact .pure rfl
  | .name _ name => exact follows_lookup hl (hk name (List.mem_singleton.2 rfl))
  | .list _ items =>
    exact .bind (follows_collected _ (follows_evalAll hc hl items hk)) fun s =>
      .pure (Value.restamp_list _ s).symm
  | .tuple _ items =>
    exact .bind (follows_collected _ (follows_evalAll hc hl items hk)) fun s =>
      .pure (Value.restamp_tuple _ s).symm
  | .unary _ .neg operand =>
    exact .bind (follows_eval hc hl operand hk) fun v => ofExcept (Value.negate_restamp _ v)
  | .unary _ .not operand =>
    exact .bind (follows_eval hc hl operand hk) fun v => .bind (follows_truth _ _ v) fun _ =>
      .pure rfl
  | .binary _ op left right =>
    have hleft := follows_eval hc hl left fun name hname => hk name (List.mem_append_left _ hname)
    have hright := follows_eval hc hl right fun name hname => hk name (List.mem_append_right _ hname)
    cases op with
    | and =>
      refine .bind hleft fun v => .bind (follows_truth _ _ v) fun b => ?_
      cases b with
      | true => exact .bind hright fun w => .bind (follows_truth _ _ w) fun _ => .pure rfl
      | false => exact .pure rfl
    | or =>
      refine .bind hleft fun v => .bind (follows_truth _ _ v) fun b => ?_
      cases b with
      | true => exact .pure rfl
      | false => exact .bind hright fun w => .bind (follows_truth _ _ w) fun _ => .pure rfl
    | _ =>
      exact .bind hleft fun a => .bind hright fun b =>
        follows_ofMetered (Metered.follows_combine _ a b)
  | .call span callee args =>
    have hcallee := follows_eval hc hl callee fun name hname =>
      hk name (List.mem_append_left _ hname)
    have hargs := follows_evalArgs hc hl .empty args fun name hname =>
      hk name (List.mem_append_right _ hname)
    exact .bind hcallee fun target => .bind hargs fun args =>
      follows_apply hc target callee.span args span
  | .method _ receiver method args =>
    have hreceiver : ∀ name ∈ receiver.mentions, known name := fun name hname =>
      hk name (List.mem_append_left _ hname)
    have hargs := follows_evalArgs hc hl .empty args fun name hname =>
      hk name (List.mem_append_right _ hname)
    refine follows_locating _ ?_
    split
    · refine .bindEnsured (follows_resolve hc hl receiver hreceiver) (ensures_resolve receiver)
        fun place hroot => .bind hargs fun args => ?_
      exact follows_updatePlace hl (hreceiver _ (receiver.root_subset_mentions _ hroot)) fun old =>
        Metered.follows_method old _ args
    · exact .bind (follows_eval hc hl receiver hreceiver) fun object => .bind hargs fun args =>
        .bind (follows_ofMetered (Metered.follows_method object _ args)) fun found => .pure rfl
  | .field _ object field =>
    exact .bind (follows_eval hc hl object hk) fun v => follows_locating _
      (follows_ofMetered (Metered.follows_readField v _))
  | .index _ object index =>
    have hobject := follows_eval hc hl object fun name hname =>
      hk name (List.mem_append_left _ hname)
    have hindex := follows_eval hc hl index fun name hname =>
      hk name (List.mem_append_right _ hname)
    exact .bind hobject fun v => .bind hindex fun w => .bind (follows_position _ w) fun p =>
      follows_locating _ (ofExcept (Value.readIndex_restamp _ v p))
termination_by structural e

theorem follows_evalAll (hc : CallsFollow delay context globals caller)
    (hl : delay.Links near known) (items : List Expr)
    (hk : ∀ name ∈ Script.itemMentions items, known name) :
    Follows delay context near globals (List.map delay.value) (evalAll caller items)
      (evalAll caller items) := by
  match items with
  | [] => exact .pure rfl
  | e :: rest =>
    have hfirst := follows_eval hc hl e fun name hname => hk name (List.mem_append_left _ hname)
    have hrest := follows_evalAll hc hl rest fun name hname =>
      hk name (List.mem_append_right _ hname)
    exact .bind hfirst fun v => .bind hrest fun values => .pure rfl
termination_by structural items

theorem follows_evalArgs (hc : CallsFollow delay context globals caller)
    (hl : delay.Links near known) (done : Arguments) (args : List Argument)
    (hk : ∀ name ∈ Script.argumentMentions args, known name) :
    Follows delay context near globals (Arguments.restamp delay.stamp) (evalArgs caller done args)
      (evalArgs caller (done.restamp delay.stamp) args) := by
  match args with
  | [] => exact .pure rfl
  | .positional e :: rest =>
    have hfirst := follows_eval hc hl e fun name hname => hk name (List.mem_append_left _ hname)
    refine .bind hfirst fun v => ?_
    rw [← Arguments.add_restamp]
    exact follows_evalArgs hc hl (done.add v) rest fun name hname =>
      hk name (List.mem_append_right _ hname)
  | .keyword name e :: rest =>
    have hfirst := follows_eval hc hl e fun name hname => hk name (List.mem_append_left _ hname)
    refine .bind hfirst fun v =>
      .bind (follows_locating _ (ofExcept (Arguments.addKeyword_restamp _ done name.text v)))
        fun more => ?_
    exact follows_evalArgs hc hl more rest fun name hname => hk name (List.mem_append_right _ hname)
termination_by structural args

theorem follows_resolve (hc : CallsFollow delay context globals caller)
    (hl : delay.Links near known) (e : Expr) (hk : ∀ name ∈ e.mentions, known name) :
    Follows delay context near globals id (resolve caller e) (resolve caller e) := by
  match e with
  | .name span name => exact .pure rfl
  | .field _ object field => exact .bind (follows_resolve hc hl object hk) fun place => .pure rfl
  | .index _ object index =>
    have hobject := follows_resolve hc hl object fun name hname =>
      hk name (List.mem_append_left _ hname)
    have hindex := follows_eval hc hl index fun name hname =>
      hk name (List.mem_append_right _ hname)
    exact .bind hobject fun place => .bind hindex fun w => .bind (follows_position _ w) fun p =>
      .pure rfl
  | .int _ _ | .float _ _ | .text _ _ | .bool _ _ | .none _ | .list _ _ | .tuple _ _
  | .unary _ _ _ | .binary _ _ _ _ | .call _ _ _ | .method _ _ _ _ =>
    exact follows_refuseAt _ _ _
termination_by structural e

end

/-! ## Bodies of functions -/

/-- In the variables of a call all names are known. -/
theorem follows_evalCalled (hc : CallsFollow delay context globals caller) (e : Expr) :
    Follows delay context (delay.Called near) globals delay.value (eval caller e)
      (eval caller e) :=
  follows_eval hc (delay.links_called near) e fun _ _ => trivial

mutual

theorem follows_exec (hc : CallsFollow delay context globals caller) (statement : Stmt) :
    Follows delay context (delay.Called near) globals (Flow.restamp delay.stamp)
      (exec caller statement) (exec caller statement) := by
  unfold exec
  refine follows_counted (.bind (follows_locating _
    (follows_ofMetered (Metered.follows_charge 1))) fun _ => ?_)
  match statement with
  | .bind _ name value =>
    exact .bind (follows_evalCalled hc value) fun v =>
      .bind (follows_changeLocals fun locals => locals.declare_restamp _ name.text v) fun _ =>
        .pure rfl
  | .assign _ target op value =>
    have htarget := follows_resolve hc (delay.links_called near) target fun _ _ => trivial
    exact .bind (follows_evalCalled hc value) fun v => .bind htarget fun place =>
      .bind (follows_locating _ (follows_store (delay.links_called near) trivial op v)) fun _ =>
        .pure rfl
  | .expr _ value => exact .bind (follows_evalCalled hc value) fun v => .pure rfl
  | .giveBack _ none => exact .pure rfl
  | .giveBack _ (some value) => exact .bind (follows_evalCalled hc value) fun v => .pure rfl
  | .choose _ branches otherwise =>
    refine .bind (follows_execBranches hc branches) fun found => ?_
    cases found with
    | some flow => exact .pure rfl
    | none => exact follows_execOtherwise hc otherwise
  | .loop _ var iterable (.mk _ body) =>
    have hbody (item : Value) : Follows delay context (delay.Called near) globals
        (Flow.restamp delay.stamp)
        (inBlock do
          modifyLocals fun locals => locals.declare var.text item
          execAll caller body)
        (inBlock do
          modifyLocals fun locals => locals.declare var.text (delay.value item)
          execAll caller body) :=
      follows_inBlock (.bind (follows_changeLocals fun locals =>
        locals.declare_restamp _ var.text item) fun _ => follows_execAll hc body)
    exact .bind (follows_evalCalled hc iterable) fun v => .bind (follows_iterated _ v) fun items =>
      follows_rounds _ hbody items
termination_by structural statement

theorem follows_execBranches (hc : CallsFollow delay context globals caller)
    (branches : List Branch) :
    Follows delay context (delay.Called near) globals (Option.map (Flow.restamp delay.stamp))
      (execBranches caller branches) (execBranches caller branches) := by
  match branches with
  | [] => exact .pure rfl
  | .mk condition block :: rest =>
    refine .bind (follows_evalCalled hc condition) fun v => .bind (follows_truth _ _ v) fun b => ?_
    cases b with
    | true => exact .bind (follows_execBlock hc block) fun flow => .pure rfl
    | false => exact follows_execBranches hc rest
termination_by structural branches

theorem follows_execOtherwise (hc : CallsFollow delay context globals caller)
    (otherwise : Option Block) :
    Follows delay context (delay.Called near) globals (Flow.restamp delay.stamp)
      (execOtherwise caller otherwise) (execOtherwise caller otherwise) := by
  match otherwise with
  | none => exact .pure rfl
  | some block => exact follows_execBlock hc block
termination_by structural otherwise

theorem follows_execBlock (hc : CallsFollow delay context globals caller) (block : Block) :
    Follows delay context (delay.Called near) globals (Flow.restamp delay.stamp)
      (execBlock caller block) (execBlock caller block) := by
  match block with
  | .mk _ statements => exact follows_inBlock (follows_execAll hc statements)
termination_by structural block

theorem follows_execAll (hc : CallsFollow delay context globals caller) (statements : List Stmt) :
    Follows delay context (delay.Called near) globals (Flow.restamp delay.stamp)
      (execAll caller statements) (execAll caller statements) := by
  match statements with
  | [] => exact .pure rfl
  | statement :: rest =>
    refine .bind (follows_exec hc statement) fun flow => ?_
    cases flow with
    | giveBack v => exact .pure rfl
    | next => exact follows_execAll hc rest
termination_by structural statements

end

theorem follows_runBody (hc : CallsFollow delay context globals caller) (function : Function)
    (params : Scope) (span : Span) :
    Follows delay context near globals delay.value (runBody caller function params span)
      (runBody caller function (params.restamp delay.stamp) span) := by
  refine .mapFault (fun fault => fault.cause_leave _ span) ?_
  refine .bind (follows_inCall params (follows_execBlock hc function.body)) fun flow => ?_
  cases flow <;> exact .pure rfl

/-- However many calls may still be opened, calls of functions follow. -/
theorem callsFollow_enter (remaining : Nat) :
    CallsFollow delay context globals (callNamed (enter remaining)) := by
  have hnamed {enter : Entrance} (he : ∀ near function params span,
      Follows delay context near globals delay.value (enter function params span)
        (enter function (params.restamp delay.stamp) span)) :
      CallsFollow delay context globals (callNamed enter) := by
    intro near name args span
    refine .bind (show Follows delay context near globals id _ _ from
      follows_consult fun _ _ _ => ?_) fun function =>
        .bind (ofExcept (bindParams_restamp _ function args)) fun params =>
          he near function params span
    cases context.function? name <;> rfl
  induction remaining with
  | zero => exact hnamed fun _ _ _ _ => .bind .read fun _ => follows_refuseAt _ _ _
  | succ rest ih => exact hnamed fun _ function params span => follows_runBody ih function params span

end Evaluation

end LandPattern
