import LandPattern.Proofs.Run.Watched

/-!
# Runs never go astray

No run of an accepted script comes to a state that only a script with problems could lead to. What
validation says about targets of assignments holds in every block; the functions that values name are
those of the script; and blocks and calls are closed in the order in which they were opened.
-/

namespace LandPattern

open Script (Argument AssignOp BinaryOp Block Branch Depths Expr Function Item Program Span Stmt
  targetProblems)

namespace Evaluation

open Machine (Fine)

variable {context : Context} {good : Value → Prop} {shape outer : List Nat} {scopes : Nat}

/-- What is known of a watched run: good values stay good, texts are good, and functions are good
only when the script defines them. Calls of defined functions need not be watched. -/
structure Watching (context : Context) (good : Value → Prop) (caller watched : Caller) : Prop where
  lasting : Value.Lasting context good
  text : ∀ text, good (.text text)
  defined : ∀ name, good (.function name) → (context.function? name).isSome
  calls : ∀ shape name args span, args.All good → (context.function? name).isSome →
    Tracks context (Fine good shape) (caller name args span) (watched name args span) good

section Steps

theorem tracks_truth (what : String) (span : Span) (v : Value) :
    Tracks context (Fine good shape) (truth what span v) (truth what span v) fun _ => True := by
  cases v with
  | bool b => exact .pure trivial
  | _ => exact .refuseAt trivial

theorem tracks_position (span : Span) (v : Value) :
    Tracks context (Fine good shape) (position span v) (position span v) fun _ => True := by
  cases v with
  | int n => exact .pure trivial
  | _ => exact .refuseAt trivial

variable (hg : Value.Lasting context good)

include hg

theorem tracks_iterated (span : Span) {v : Value} (hv : good v) :
    Tracks context (Fine good shape) (iterated span v) (iterated span v)
      fun items => ∀ item ∈ items, good item := by
  unfold iterated
  split
  · rename_i s hs
    exact .pure (hg.items hv hs)
  · exact .refuseAt trivial

theorem tracks_lookup (name : String) :
    Tracks context (Fine good shape) (lookup name) (lookup name) good := by
  refine tracks_consult (fun globals locals v hglobals hlocals hv => ?_) fun globals locals => ?_
  · split at hv
    · rename_i w hw
      cases hv
      obtain ⟨found, hfound, hget⟩ := Option.bind_eq_some_iff.1 hw
      exact (hlocals found hfound).1.get? hget
    · rename_i hglobal
      cases hv
      exact hglobals.lookup hglobal
    · split at hv
      · cases hv
        exact hg.function ‹_›
      · split at hv
        · cases hv
          exact hg.builtin _
        · cases hv
  · split
    · exact .ok _
    · exact .ok _
    · refine .ite (.ok _) ?_
      split
      · exact .ok _
      · exact .error trivial

theorem tracks_collected (length : Nat) {items watched : Evaluation (List Value)}
    (h : Tracks context (Fine good shape) items watched fun values => ∀ v ∈ values, good v) :
    Tracks context (Fine good shape) (collected length items) (collected length watched)
      fun s => good (.list s) ∧ good (.tuple s) := by
  refine .bind (tracks_ofMetered (Metered.yields_any _) (.checkLength length)) fun _ _ =>
    .bind h fun values hvalues => tracks_ofMetered (hg.collected hvalues) ?_
  exact .bind (.sequence _) fun s => .bind (.checkSequence s) fun _ => .pure s

end Steps

theorem tracks_charge (cost : Nat) :
    Tracks context (Fine good shape) (ofMetered (Metered.charge cost))
      (ofMetered (Metered.charge cost)) fun _ => True :=
  tracks_ofMetered (Metered.yields_any _) (.charge cost)

theorem common_notWritable (context : Context) (name : String) :
    ∀ (globals : Scope) (_ : Option Locals), Refusal.CommonIn
      (if (globals.lookup name).isSome || (context.function? name).isSome then
        .ok (.readOnlyTopLevel name)
      else if (Builtin.ofName? name).isSome then .ok (.readOnlyBuiltin name)
      else .ok (.undefinedTarget name) : Except Refusal Refusal) :=
  fun _ _ => .ite (.ok _) (.ite (.ok _) (.ok _))

/-- A write finds its variable in an active call, or refuses. -/
theorem tracks_updatePlace {α : Type} {promise : α → Prop} (place : Place)
    {write : Value → Metered (Value × α)}
    (hw : ∀ root, good root → Metered.Yields context.limits (root.updateWithin place.steps write)
      fun written => good written.1 ∧ promise written.2)
    (hm : ∀ old, (write old).Made Fault.Possible) :
    Tracks context (Fine good shape) (updatePlace place write) (updatePlace place write) promise := by
  have hlocal : Tracks context (Fine good shape) (local? place.root) (local? place.root)
      fun found => ∀ v, found = some v → good v ∧ shape ≠ [] := by
    refine tracks_consult (fun globals locals found _ hlocals heq v hv => ?_) fun _ _ => .ok _
    cases heq
    obtain ⟨frame, hframe, hget⟩ := Option.bind_eq_some_iff.1 hv
    exact ⟨(hlocals frame hframe).1.get? hget, (hlocals frame hframe).2⟩
  refine .bind hlocal fun found hfound => ?_
  cases found with
  | none =>
    have hwhy : Tracks context (Fine good shape) (notWritable place.root) (notWritable place.root)
        Refusal.Common := by
      refine tracks_consult (fun globals locals why _ _ heq => ?_) (common_notWritable context _)
      split at heq
      · cases heq
        trivial
      · split at heq <;> cases heq <;> trivial
    exact .bind hwhy fun why hcommon => .refuseAt hcommon
  | some root =>
    obtain ⟨hroot, hshape⟩ := hfound root rfl
    obtain ⟨scopes, outer, rfl⟩ := List.exists_cons_of_ne_nil hshape
    have hmade : Metered.Made Fault.Possible (root.updateWithin place.steps write) :=
      .updateWithin (fun _ _ _ hwhy => hwhy.locate _) hm
    refine .bind (tracks_ofMetered (hw root hroot) hmade) fun written hwritten => ?_
    refine .bind (tracks_modifyLocals (fun _ hlocals => hlocals.set hwritten.1)
      fun locals => locals.length_set _ _) fun _ _ => .pure hwritten.2

theorem tracks_store (hg : Value.Lasting context good) (place : Place) (op : AssignOp) {v : Value}
    (hv : good v) :
    Tracks context (Fine good shape) (store place op v) (store place op v) fun _ => True :=
  tracks_updatePlace place
    (fun _ hroot => (hg.stored place.steps op hroot hv).weaken fun _ hwritten => ⟨hwritten, trivial⟩)
    fun old => .bind (.assigned op old v) fun _ => .pure _

theorem tracks_rounds (each : Rounds) {body watched : Value → Evaluation Flow} {items : List Value}
    (h : ∀ item ∈ items, Tracks context (Fine good shape) (body item) (watched item)
      (Flow.All good)) :
    Tracks context (Fine good shape) (rounds each body items) (rounds each watched items)
      (Flow.All good) := by
  have hcount : Tracks context (Fine good shape) (ofMetered (Metered.countRounds each))
      (ofMetered (Metered.countRounds each)) fun _ => True :=
    .refl (ensures_ofMetered (fun _ meter hfine => hfine.withMeter meter) (Metered.yields_any _))
      (ends_ofMetered .modify)
  induction items with
  | nil => exact .pure trivial
  | cons item rest ih =>
    refine .bind hcount fun _ _ => .bind (h item List.mem_cons_self) fun flow hflow => ?_
    cases flow with
    | giveBack v => exact .pure hflow
    | next => exact ih fun other hother => h other (List.mem_cons_of_mem _ hother)

section Trees

variable {caller watched : Caller}

/-- A value that is called is a function of the script, a word of the vocabulary, or refused. -/
theorem tracks_apply (hw : Watching context good caller watched) {callee : Value}
    (hcallee : good callee) (calleeSpan : Span) {args : Arguments} (callSpan : Span)
    (ha : args.All good) :
    Tracks context (Fine good shape) (apply caller callee calleeSpan args callSpan)
      (apply watched callee calleeSpan args callSpan) good := by
  cases callee with
  | builtin word => exact tracks_ofMetered (hw.lasting.call word ha) (.call word args)
  | function name => exact hw.calls shape name args callSpan ha (hw.defined name hcallee)
  | _ => exact .refuseAt trivial

mutual

/-- Expressions have good values in any state, and never go astray. -/
theorem tracks_eval (hw : Watching context good caller watched) (shape : List Nat) (e : Expr) :
    Tracks context (Fine good shape) (eval caller e) (eval watched e) good := by
  have hg := hw.lasting
  unfold eval
  refine tracks_counted (.locating _ (tracks_noting (.bind (tracks_charge 1) fun _ _ => ?_)))
  match e with
  | .int _ n => exact .pure (hg.int n)
  | .float _ x => exact .pure (hg.float x)
  | .text _ s => exact .pure (hw.text s)
  | .bool _ b => exact .pure (hg.bool b)
  | .none _ => exact .pure hg.nothing
  | .name _ name => exact tracks_lookup hg name
  | .list _ items =>
    exact .bind (tracks_collected hg _ (tracks_evalAll hw shape items)) fun _ hs => .pure hs.1
  | .tuple _ items =>
    exact .bind (tracks_collected hg _ (tracks_evalAll hw shape items)) fun _ hs => .pure hs.2
  | .unary _ .neg operand =>
    refine .bind (tracks_eval hw shape operand) fun v _ => ?_
    exact .ofExcept (fun w heq => hg.negate heq) v.common_negate
  | .unary _ .not operand =>
    exact .bind (tracks_eval hw shape operand) fun v _ => .bind (tracks_truth _ _ v) fun _ _ =>
      .pure (hg.bool _)
  | .binary _ op left right =>
    have hl := tracks_eval hw shape left
    have hr := tracks_eval hw shape right
    cases op with
    | and =>
      refine .bind hl fun v _ => .bind (tracks_truth _ _ v) fun b _ => ?_
      cases b with
      | true => exact .bind hr fun w _ => .bind (tracks_truth _ _ w) fun _ _ => .pure (hg.bool _)
      | false => exact .pure (hg.bool _)
    | or =>
      refine .bind hl fun v _ => .bind (tracks_truth _ _ v) fun b _ => ?_
      cases b with
      | true => exact .pure (hg.bool _)
      | false => exact .bind hr fun w _ => .bind (tracks_truth _ _ w) fun _ _ => .pure (hg.bool _)
    | _ =>
      exact .bind hl fun a ha => .bind hr fun b hb =>
        tracks_ofMetered (hg.combine _ ha hb) (.combine_eager (by decide) (by decide) a b)
  | .call span callee args =>
    exact .bind (tracks_eval hw shape callee) fun _ hcallee =>
      .bind (tracks_evalArgs hw shape .empty args .empty) fun _ ha => tracks_apply hw hcallee _ _ ha
  | .method _ receiver method args =>
    have hargs := tracks_evalArgs hw shape .empty args .empty
    refine .locating _ (.ite (fun hmutates => ?_) fun _ => ?_)
    · have hplace := (Bool.and_eq_true_iff.1 hmutates).2
      exact .bind (tracks_resolve hw shape receiver hplace) fun place _ => .bind hargs fun _ ha =>
        tracks_updatePlace place (fun _ hroot => hg.mutated place.steps method.text hroot ha)
          fun old => .method old _ _
    · exact .bind (tracks_eval hw shape receiver) fun object hobject => .bind hargs fun args ha =>
        .bind (tracks_ofMetered (hg.method method.text hobject ha) (.method object _ args))
          fun _ hfound => .pure hfound
  | .field _ object field =>
    exact .bind (tracks_eval hw shape object) fun v hv => .locating _
      (tracks_ofMetered (hg.readField field.text hv) (.readField v _))
  | .index _ object index =>
    exact .bind (tracks_eval hw shape object) fun v hv => .bind (tracks_eval hw shape index)
      fun w _ => .bind (tracks_position _ w) fun p _ =>
        .locating _ (.ofExcept (fun _ hitem => hg.readIndex hv hitem) (v.common_readIndex p))
termination_by structural e

theorem tracks_evalAll (hw : Watching context good caller watched) (shape : List Nat)
    (items : List Expr) :
    Tracks context (Fine good shape) (evalAll caller items) (evalAll watched items)
      fun values => ∀ v ∈ values, good v := by
  match items with
  | [] => exact .pure fun _ h => absurd h List.not_mem_nil
  | e :: rest =>
    refine .bind (tracks_eval hw shape e) fun v hv => .bind (tracks_evalAll hw shape rest)
      fun vs hvs => .pure fun w hmem => ?_
    rcases List.mem_cons.1 hmem with rfl | htail
    · exact hv
    · exact hvs w htail
termination_by structural items

theorem tracks_evalArgs (hw : Watching context good caller watched) (shape : List Nat)
    (done : Arguments) (args : List Argument) (hd : done.All good) :
    Tracks context (Fine good shape) (evalArgs caller done args) (evalArgs watched done args)
      (Arguments.All good) := by
  match args with
  | [] => exact .pure hd
  | .positional e :: rest =>
    exact .bind (tracks_eval hw shape e) fun v hv =>
      tracks_evalArgs hw shape (done.add v) rest (hd.add hv)
  | .keyword name e :: rest =>
    refine .bind (tracks_eval hw shape e) fun v hv => ?_
    have hadded : Tracks context (Fine good shape)
        (locating name.span (Act.ofExcept (done.addKeyword name.text v)))
        (locating name.span (Act.ofExcept (done.addKeyword name.text v))) (Arguments.All good) :=
      .locating _ (.ofExcept (fun _ hmore => hd.addKeyword hv hmore) (done.common_addKeyword _ v))
    exact .bind hadded fun found hfound => tracks_evalArgs hw shape found rest hfound
termination_by structural args

/-- A place is resolved without a refusal of what it is. -/
theorem tracks_resolve (hw : Watching context good caller watched) (shape : List Nat) (e : Expr)
    (hp : e.isPlace = true) :
    Tracks context (Fine good shape) (resolve caller e) (resolve watched e) fun _ => True := by
  match e with
  | .name span name => exact .pure trivial
  | .field _ object field =>
    exact .bind (tracks_resolve hw shape object hp) fun place _ => .pure trivial
  | .index _ object index =>
    exact .bind (tracks_resolve hw shape object hp) fun place _ =>
      .bind (tracks_eval hw shape index) fun v _ => .bind (tracks_position _ v) fun _ _ =>
        .pure trivial
  | .int _ _ | .float _ _ | .text _ _ | .bool _ _ | .none _ | .list _ _ | .tuple _ _
  | .unary _ _ _ | .binary _ _ _ _ | .call _ _ _ | .method _ _ _ _ => cases hp
termination_by structural e

end

theorem tracks_declare (name : String) {v : Value} (hv : good v) :
    Tracks context (Fine good (scopes :: outer)) (modifyLocals fun locals => locals.declare name v)
      (modifyLocals fun locals => locals.declare name v) fun _ => True :=
  tracks_modifyLocals (fun _ hlocals => hlocals.declare hv) fun locals => locals.length_declare name v

/-- A target without problems is a place. -/
theorem isPlace_of_targetProblems {target : Expr} (h : targetProblems target = []) :
    target.isPlace = true := by
  unfold targetProblems at h
  split at h
  · assumption
  · cases h

mutual

/-- Statements without problems leave as many scopes as they found, and never go astray. -/
theorem tracks_exec (stray : Stray) (hw : Watching context good caller watched) (scopes : Nat)
    (outer : List Nat) {limit : Nat} (s : Stmt) (hp : s.problems limit = []) :
    Tracks context (Fine good ((scopes + 1) :: outer)) (exec caller s)
      (Watched.exec stray watched s) (Flow.All good) := by
  have heval := tracks_eval hw ((scopes + 1) :: outer)
  unfold exec Watched.exec
  refine tracks_inFrame stray (tracks_counted (.bind (.locating _ (tracks_charge 1)) fun _ _ => ?_))
  match s with
  | .bind _ name value =>
    exact .bind (heval value) fun _ hv => .bind (tracks_declare name.text hv) fun _ _ =>
      .pure trivial
  | .assign _ target op value =>
    rw [Stmt.problems, List.append_eq_nil_iff, List.append_eq_nil_iff] at hp
    have hplace := isPlace_of_targetProblems hp.1.1
    have hresolve : Tracks context (Fine good ((scopes + 1) :: outer)) (resolve caller target)
        (Watched.resolve stray watched target) fun _ => True := by
      rw [Watched.resolve, if_pos hplace]
      exact tracks_resolve hw _ target hplace
    exact .bind (heval value) fun _ hv => .bind hresolve fun place _ =>
      .bind (.locating _ (tracks_store hw.lasting place op hv)) fun _ _ => .pure trivial
  | .expr _ value => exact .bind (heval value) fun _ _ => .pure trivial
  | .giveBack _ none => exact .pure hw.lasting.nothing
  | .giveBack _ (some value) => exact .bind (heval value) fun _ hv => .pure hv
  | .choose _ branches otherwise =>
    rw [Stmt.problems, List.append_eq_nil_iff] at hp
    refine .bind (tracks_execBranches stray hw scopes outer branches hp.1) fun found hfound => ?_
    cases found with
    | some flow => exact .pure (hfound flow rfl)
    | none => exact tracks_execOtherwise stray hw scopes outer otherwise hp.2
  | .loop _ var iterable (.mk _ body) =>
    rw [Stmt.problems, List.append_eq_nil_iff, Block.problems] at hp
    refine .bind (heval iterable) fun v hv => .bind (tracks_iterated hw.lasting _ hv)
      fun items hitems => tracks_rounds _ fun item hitem => ?_
    exact tracks_inBlock stray (.bind (tracks_declare var.text (hitems item hitem)) fun _ _ =>
      tracks_execAll stray hw (scopes + 1) outer body hp.2)
termination_by structural s

theorem tracks_execBranches (stray : Stray) (hw : Watching context good caller watched)
    (scopes : Nat) (outer : List Nat) {limit : Nat} (branches : List Branch)
    (hp : Script.branchProblems limit branches = []) :
    Tracks context (Fine good ((scopes + 1) :: outer)) (execBranches caller branches)
      (Watched.execBranches stray watched branches)
      fun found => ∀ flow, found = some flow → flow.All good := by
  match branches with
  | [] => exact .pure fun _ heq => (by cases heq)
  | .mk condition block :: rest =>
    rw [Script.branchProblems, List.append_eq_nil_iff, Branch.problems, List.append_eq_nil_iff]
      at hp
    refine .bind (tracks_eval hw _ condition) fun v _ => .bind (tracks_truth _ _ v) fun b _ => ?_
    cases b with
    | true =>
      exact .bind (tracks_execBlock stray hw scopes outer block hp.1.2) fun flow hflow =>
        .pure fun other heq => Option.some.inj heq ▸ hflow
    | false => exact tracks_execBranches stray hw scopes outer rest hp.2
termination_by structural branches

theorem tracks_execOtherwise (stray : Stray) (hw : Watching context good caller watched)
    (scopes : Nat) (outer : List Nat) {limit : Nat} (otherwise : Option Block)
    (hp : Script.elseProblems limit otherwise = []) :
    Tracks context (Fine good ((scopes + 1) :: outer)) (execOtherwise caller otherwise)
      (Watched.execOtherwise stray watched otherwise) (Flow.All good) := by
  match otherwise with
  | none => exact .pure trivial
  | some block => exact tracks_execBlock stray hw scopes outer block hp
termination_by structural otherwise

theorem tracks_execBlock (stray : Stray) (hw : Watching context good caller watched) (scopes : Nat)
    (outer : List Nat) {limit : Nat} (block : Block) (hp : block.problems limit = []) :
    Tracks context (Fine good ((scopes + 1) :: outer)) (execBlock caller block)
      (Watched.execBlock stray watched block) (Flow.All good) := by
  match block with
  | .mk _ statements =>
    rw [Block.problems] at hp
    exact tracks_inBlock stray (tracks_execAll stray hw (scopes + 1) outer statements hp)
termination_by structural block

theorem tracks_execAll (stray : Stray) (hw : Watching context good caller watched) (scopes : Nat)
    (outer : List Nat) {limit : Nat} (statements : List Stmt)
    (hp : Script.statementProblems limit statements = []) :
    Tracks context (Fine good ((scopes + 1) :: outer)) (execAll caller statements)
      (Watched.execAll stray watched statements) (Flow.All good) := by
  match statements with
  | [] => exact .pure trivial
  | s :: rest =>
    rw [Script.statementProblems, List.append_eq_nil_iff] at hp
    refine .bind (tracks_exec stray hw scopes outer s hp.1) fun flow hflow => ?_
    cases flow with
    | giveBack v => exact .pure hflow
    | next => exact tracks_execAll stray hw scopes outer rest hp.2
termination_by structural statements

end

end Trees

section Programs

/-- Every function of the context is entered with good values, in any state, and never goes
astray. -/
def EntersTrack (context : Context) (good : Value → Prop) (enter watched : Entrance) : Prop :=
  ∀ shape, ∀ function ∈ context.functions, ∀ params span, params.All good →
    Tracks context (Fine good shape) (enter function params span) (watched function params span) good

/-- A name that is defined is called alike, watched or not. -/
theorem tracks_callNamed (stray : Stray) {enter watched : Entrance}
    (he : EntersTrack context good enter watched) (shape : List Nat) (name : String)
    (args : Arguments) (span : Span) (ha : args.All good)
    (hdefined : (context.function? name).isSome) :
    Tracks context (Fine good shape) (callNamed enter name args span)
      (Watched.callNamed stray watched name args span) good := by
  obtain ⟨function, hfunction⟩ := Option.isSome_iff_exists.1 hdefined
  have hmem : function ∈ context.functions := List.mem_of_find?_eq_some hfunction
  have hcall : Tracks context (Fine good shape)
      (Act.ofExcept (bindParams function args) >>= fun params => enter function params span)
      (Act.ofExcept (bindParams function args) >>= fun params => watched function params span)
      good :=
    .bind (.ofExcept (fun _ hscope => all_bindParams ha hscope) (common_bindParams function args))
      fun params hparams => he shape function hmem params span hparams
  refine hcall.congr (fun machine => ?_) fun machine => ?_
  · refine Act.outcome_bind_ok _ _ ?_ _
    change (Act.ofExcept _ : Evaluation _).outcome context machine = _
    rw [hfunction]
    rfl
  · have hlook : (consult fun function? _ _ => .ok (function? name) :
        Evaluation (Option Function)).outcome context machine = (.ok (some function), machine) := by
      change (Except.ok (context.function? name), machine) = _
      rw [hfunction]
    exact Act.outcome_bind_ok _ _ hlook _

/-- However many calls may still be opened, functions without problems never go astray. -/
theorem tracks_enter (stray : Stray) (hg : Value.Lasting context good)
    (ht : ∀ text, good (.text text))
    (hd : ∀ name, good (.function name) → (context.function? name).isSome) {limit : Nat}
    (hp : ∀ function ∈ context.functions, function.body.problems limit = []) (remaining : Nat) :
    EntersTrack context good (enter remaining) (Watched.enter stray remaining) := by
  induction remaining with
  | zero =>
    intro shape function hmem params span hparams
    exact .bind (.refl .read .read) fun _ _ => .refuseAt trivial
  | succ rest ih =>
    intro shape function hmem params span hparams
    have hw : Watching context good (callNamed (enter rest))
        (Watched.callNamed stray (Watched.enter stray rest)) :=
      ⟨hg, ht, hd, tracks_callNamed stray ih⟩
    have hbody := tracks_execBlock stray hw 0 shape function.body (hp function hmem)
    refine .mapFault (fun fault => fault.cause_leave _ _) (.bind (tracks_inCall hparams hbody)
      fun flow hflow => ?_)
    cases flow with
    | giveBack v => exact .pure hflow
    | next => exact .pure hg.nothing

theorem tracks_loadConstants {caller watched : Caller} (hw : Watching context good caller watched)
    (items : List Item) :
    Tracks context (Fine good []) (loadConstants caller items) (loadConstants watched items)
      fun _ => True := by
  induction items with
  | nil => exact .pure trivial
  | cons item rest ih =>
    cases item with
    | function definition => exact ih
    | constant name value =>
      refine .bind (.mapFault (fun fault => fault.cause_leave _ _) (tracks_eval hw [] value))
        fun v hv => .bind (.modify fun machine hfine => ?_) fun _ _ => ih
      exact ⟨hfine.all.withGlobals (hfine.all.now.globals.declare hv), hfine.shape⟩

theorem tracks_callEntryPoint {enter watched : Entrance}
    (he : EntersTrack context good enter watched) (program : Program) :
    Tracks context (Fine good []) (callEntryPoint enter program) (callEntryPoint watched program)
      good := by
  have hfunction : Tracks context (Fine good [])
      (consult fun function? _ _ => .ok (function? entryPoint))
      (consult fun function? _ _ => .ok (function? entryPoint))
      fun found => ∀ function, found = some function → function ∈ context.functions := by
    refine tracks_consult (fun _ _ found _ _ heq function hfound => ?_) fun _ _ => .ok _
    cases heq
    exact List.mem_of_find?_eq_some hfound
  have hglobal : Tracks context (Fine good [])
      (consult fun _ globals _ => .ok (globals.lookup entryPoint))
      (consult fun _ globals _ => .ok (globals.lookup entryPoint)) fun _ => True :=
    tracks_consult (fun _ _ _ _ _ _ => trivial) fun _ _ => .ok _
  refine .bind hfunction fun found hfound => ?_
  cases found with
  | some function =>
    obtain ⟨name, params, body, span⟩ := function
    cases params with
    | nil => exact he [] _ (hfound _ rfl) _ _ fun _ h => absurd h List.not_mem_nil
    | cons first rest => exact .fault (by simp [Fault.Cause.Possible, Fault.of, Fault.Cause.kind])
  | none =>
    refine .bind hglobal fun found _ => ?_
    cases found with
    | none => exact .fault (by simp [Fault.Cause.Possible, Fault.of, Fault.Cause.kind])
    | some v =>
      dsimp only
      split
      · exact .fault (by simp [Fault.Cause.Possible, Fault.of, Fault.Cause.kind])
      · exact .fault (by simp [Fault.Cause.Possible, Fault.of, Fault.Cause.kind])

/-- A result that is refused is refused for its shape. -/
theorem tracks_collect (v : Value) :
    Tracks context (Fine good []) (collect v) (collect v) fun _ => True := by
  refine .bind (.refl .read .read) fun found _ => ?_
  cases helements : v.elements found.limits.collection with
  | ok elements => exact .pure trivial
  | error fault =>
    obtain ⟨cause, hkind, rfl⟩ := Value.elements_error helements
    refine .fault ?_
    cases cause <;> simp [Fault.Cause.Possible, Fault.of, Fault.Cause.kind] at hkind ⊢
    exact hkind ▸ (by decide)

end Programs

end Evaluation

open Evaluation (Tracks Watching)

/-- Every element is as good as any other. -/
theorem Element.lasting_true (limits : Limits) : Element.Lasting limits fun _ => True where
  rect _ := trivial
  line _ := trivial
  caption _ := trivial
  smd _ := trivial
  drilled _ := trivial
  model _ := trivial
  single _ _ _ _ _ _ := trivial
  dual _ _ _ _ _ _ _ := trivial
  write _ _ := trivial
  placed _ _ := trivial
  round _ := trivial

namespace Script.Program

/-- Every function inside the value is one of the context. -/
abbrev Defined (context : Context) (v : Value) : Prop :=
  v.Leafwise (fun _ => True) fun name => (context.function? name).isSome

/-- The functions inside the values of a run are those of the script. -/
theorem lasting_defined (program : Program) (limits : Limits) :
    Value.Lasting ⟨program.functions, limits⟩ (Defined ⟨program.functions, limits⟩) :=
  Value.lasting_leafwise (Element.lasting_true limits) fun _ h => h

/-- A script without problems runs as it does when it is watched. -/
theorem tracks_runProgram (stray : Stray) (program : Program) (limits : Limits) {depth : Nat}
    (h : program.problems depth = []) :
    Tracks ⟨program.functions, limits⟩ (Machine.Fine (Defined ⟨program.functions, limits⟩) [])
      (Evaluation.runProgram (Evaluation.enter limits.callDepth) program)
      (Evaluation.Watched.runProgram stray (Evaluation.Watched.enter stray limits.callDepth) program)
      fun _ => True := by
  rw [Program.problems, List.append_eq_nil_iff, List.append_eq_nil_iff] at h
  have hbodies : ∀ function ∈ program.functions, function.body.problems depth = [] := by
    intro function hmem
    have hfunction := List.flatMap_eq_nil_iff.1 h.1.2 function hmem
    exact (List.append_eq_nil_iff.1 hfunction).2
  have hg := program.lasting_defined limits
  have ht : ∀ text, Defined ⟨program.functions, limits⟩ (.text text) := Value.leafwise_text
  have hd : ∀ name, Defined ⟨program.functions, limits⟩ (.function name) →
      (Context.function? ⟨program.functions, limits⟩ name).isSome :=
    fun _ hname => Value.leafwise_function.1 hname
  have henter := Evaluation.tracks_enter stray hg ht hd hbodies limits.callDepth
  have hw : Watching ⟨program.functions, limits⟩ (Defined ⟨program.functions, limits⟩)
      (Evaluation.callNamed (Evaluation.enter limits.callDepth))
      (Evaluation.Watched.callNamed stray (Evaluation.Watched.enter stray limits.callDepth)) :=
    ⟨hg, ht, hd, Evaluation.tracks_callNamed stray henter⟩
  exact .bind (Evaluation.tracks_loadConstants hw program.items) fun _ _ =>
    .bind (Evaluation.tracks_callEntryPoint henter program) fun v _ => Evaluation.tracks_collect v

/-- No run of an accepted script comes to a state that only a script with problems could lead to.
It never ends with an internal fault, nor for a target that is no place, nor for a function that is
not defined; every function inside a value, at any moment of the run, is one of the script; and what
would happen where a statement runs outside of every function, where the target of an assignment is
no place, where a block is closed that was not opened, or where a function that is called is not
defined, does not matter to it. -/
theorem run_straight {depths : Depths} {source : String} {program : Program}
    (h : Program.ofText depths source = .ok program) (limits : Limits) :
    (∀ fault, (program.run limits).1 = .error fault → fault.kind ≠ .internal ∧
        fault.cause ≠ .refusal .notAPlace ∧
        ∀ name, fault.cause ≠ .refusal (.undefinedFunction name)) ∧
      (∀ moment, (program.run limits).2.history moment → ∀ v ∈ moment.values, ∀ name,
        (Value.function name).Inside v → ∃ function ∈ program.functions, function.name.text = name) ∧
      ∀ stray, program.watched stray limits = program.run limits := by
  obtain ⟨tokens, -, -, -, hproblems⟩ := Program.stages_of_ofText h
  have hstart : Machine.start.Fine (Defined ⟨program.functions, limits⟩) [] :=
    ⟨Machine.All.start, rfl⟩
  refine ⟨fun fault hfault => ?_, fun moment hmoment v hv name hinside => ?_, fun stray => ?_⟩
  · have hpossible := (program.tracks_runProgram (fun _ => throw (Fault.of .noActiveFunction)) limits
      hproblems).possible _ hstart fault hfault
    refine ⟨fun hkind => ?_, fun hcause => ?_, fun name hcause => ?_⟩
    · cases hcause : fault.cause <;>
        simp_all [Fault.kind, Fault.Cause.kind, Fault.Possible, Fault.Cause.Possible]
    · rw [Fault.Possible, hcause] at hpossible
      exact hpossible
    · rw [Fault.Possible, hcause] at hpossible
      exact hpossible
  · have hall := Program.run_lasting (program.lasting_defined limits)
      fun text _ => Value.leafwise_text text
    have hsome := ((hall.history moment hmoment).mem_values v hv).function name hinside
    obtain ⟨function, hfunction⟩ := Option.isSome_iff_exists.1 hsome
    exact ⟨function, List.mem_of_find?_eq_some hfunction,
      eq_of_beq (List.find?_some (p := fun f : Function => f.name.text == name) hfunction)⟩
  · exact ((program.tracks_runProgram stray limits hproblems).same _ hstart).symm

/-- Limits under which a list of a list of a function can be made. -/
def twoDeep : Limits := ⟨0, 100, 1, 1, 2, 2, 2, 100⟩

set_option maxRecDepth 4000 in
/-- A list that holds its own function is passed about and written to, and the result is refused. -/
theorem run_straight_nested :
    ∃ program fault moment,
      Program.ofText ⟨2, 2⟩ "fn footprint()\x7blet f=a;f[0]=f;\x7dlet a=[footprint];" = .ok program ∧
      (program.run twoDeep).1 = .error fault ∧ fault.kind = .shape ∧
      (program.run twoDeep).2.history moment ∧
      Value.list ⟨[.function "footprint"], 1, 0⟩ ∈ moment.values ∧
      (∃ function ∈ program.functions, function.name.text = "footprint") ∧
      ∀ stray, program.watched stray twoDeep = program.run twoDeep := by
  have hread : readLexemes 0 0 [] []
        "fn footprint()\x7blet f=a;f[0]=f;\x7dlet a=[footprint];".toList =
      ([⟨.wordFn, ⟨0, 2⟩⟩, ⟨.blank, ⟨2, 3⟩⟩, ⟨.name "footprint", ⟨3, 12⟩⟩, ⟨.leftParen, ⟨12, 13⟩⟩,
        ⟨.rightParen, ⟨13, 14⟩⟩, ⟨.leftBrace, ⟨14, 15⟩⟩, ⟨.wordLet, ⟨15, 18⟩⟩, ⟨.blank, ⟨18, 19⟩⟩,
        ⟨.name "f", ⟨19, 20⟩⟩, ⟨.equals, ⟨20, 21⟩⟩, ⟨.name "a", ⟨21, 22⟩⟩, ⟨.semicolon, ⟨22, 23⟩⟩,
        ⟨.name "f", ⟨23, 24⟩⟩, ⟨.leftBracket, ⟨24, 25⟩⟩, ⟨.int 0, ⟨25, 26⟩⟩,
        ⟨.rightBracket, ⟨26, 27⟩⟩, ⟨.equals, ⟨27, 28⟩⟩, ⟨.name "f", ⟨28, 29⟩⟩,
        ⟨.semicolon, ⟨29, 30⟩⟩, ⟨.rightBrace, ⟨30, 31⟩⟩, ⟨.wordLet, ⟨31, 34⟩⟩,
        ⟨.blank, ⟨34, 35⟩⟩, ⟨.name "a", ⟨35, 36⟩⟩, ⟨.equals, ⟨36, 37⟩⟩, ⟨.leftBracket, ⟨37, 38⟩⟩,
        ⟨.name "footprint", ⟨38, 47⟩⟩, ⟨.rightBracket, ⟨47, 48⟩⟩, ⟨.semicolon, ⟨48, 49⟩⟩], []) := by
    decide +kernel
  let program : Program :=
    ⟨[.function ⟨⟨"footprint", ⟨3, 12⟩⟩, [], .mk ⟨14, 31⟩
        [.bind ⟨15, 23⟩ ⟨"f", ⟨19, 20⟩⟩ (.name ⟨21, 22⟩ "a"),
          .assign ⟨23, 30⟩ (.index ⟨23, 27⟩ (.name ⟨23, 24⟩ "f") (.int ⟨25, 26⟩ 0)) .set
            (.name ⟨28, 29⟩ "f")], ⟨0, 31⟩⟩,
      .constant ⟨"a", ⟨35, 36⟩⟩ (.list ⟨37, 48⟩ [.name ⟨38, 47⟩ "footprint"])]⟩
  have hprogram : Program.ofText ⟨2, 2⟩
      "fn footprint()\x7blet f=a;f[0]=f;\x7dlet a=[footprint];" = .ok program := by
    rw [Program.ofText, tokenize, hread]
    rfl
  let moment : Moment := ⟨[("a", .list ⟨[.function "footprint"], 1, 0⟩)], [], none⟩
  have hmoment : (program.run twoDeep).2.history moment := Or.inl rfl
  have hvalue : Value.list ⟨[.function "footprint"], 1, 0⟩ ∈ moment.values := List.mem_cons_self
  have hinside : (Value.function "footprint").Inside (.list ⟨[.function "footprint"], 1, 0⟩) :=
    .item rfl List.mem_cons_self (.self _)
  have hstraight := run_straight hprogram twoDeep
  exact ⟨program, _, moment, hprogram, rfl, rfl, hmoment, hvalue,
    hstraight.2.1 moment hmoment _ hvalue _ hinside, hstraight.2.2⟩

end Script.Program

end LandPattern
