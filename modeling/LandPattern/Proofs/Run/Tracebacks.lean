import LandPattern.Proofs.Run.Rising
import LandPattern.Proofs.Script.DraftExtents
import LandPattern.Proofs.Script.Names

/-!
# Tracebacks tell the truth

The frames of a run that ends with a fault of running code lead from the entry point, or from the
constant that could not be evaluated, through calls in the source to the place where the fault
arose.
-/

namespace LandPattern

open Script (Expr Function Home Item Name Program Row Span)

namespace Evaluation

variable {context : Context} {named : String → Home → Prop}

/-- A constant is evaluated, and those behind it after it. -/
theorem outcome_loadConstants (caller : Caller) (name : Name) (value : Expr) (rest : List Item)
    (machine : Machine) :
    (loadConstants caller (.constant name value :: rest)).outcome context machine =
      match (eval caller value).outcome context machine with
      | (.ok v, after) => (loadConstants caller rest).outcome context
          (after.withGlobals (after.globals.declare name.text v))
      | (.error fault, after) => (.error (fault.leave topLevel name.span), after) := by
  rw [loadConstants, Act.outcome_bind, Act.outcome_mapFault]
  rcases (eval caller value).outcome context machine with ⟨_ | v, after⟩ <;> rfl

/-- Constants that cannot all be evaluated: those before the one that faults can be. -/
theorem loadConstants_error {caller : Caller} {items : List Item} {machine : Machine}
    {fault : Fault} (h : ((loadConstants caller items).outcome context machine).1 = .error fault) :
    ∃ before name value later middle inner, items = before ++ .constant name value :: later ∧
      (loadConstants caller before).outcome context machine = (.ok (), middle) ∧
      ((eval caller value).outcome context middle).1 = .error inner ∧
      fault = inner.leave topLevel name.span := by
  induction items generalizing machine with
  | nil => cases h
  | cons item rest ih =>
    cases item with
    | function f =>
      obtain ⟨before, name, value, later, middle, inner, heq, hbefore, hvalue, hfault⟩ := ih h
      refine ⟨.function f :: before, name, value, later, middle, inner, ?_, hbefore, hvalue, hfault⟩
      rw [heq, List.cons_append]
    | constant name value =>
      rw [outcome_loadConstants] at h
      rcases hvalue : (eval caller value).outcome context machine with ⟨inner | v, after⟩
      · rw [hvalue] at h
        cases h
        exact ⟨[], name, value, rest, machine, inner, rfl, rfl, by rw [hvalue], rfl⟩
      · rw [hvalue] at h
        obtain ⟨before, other, found, later, middle, inner, heq, hbefore, hinner, hfault⟩ := ih h
        refine ⟨.constant name value :: before, other, found, later, middle, inner, ?_, ?_, hinner,
          hfault⟩
        · rw [heq, List.cons_append]
        · rw [outcome_loadConstants, hvalue]
          exact hbefore

/-- The fault of the entry point leaves the frame of the entry point outermost. -/
theorem ends_callEntryPoint (hh : Housed context named) (rest : Nat) (program : Program) :
    Act.Ends context (callEntryPoint (enter (rest + 1)) program) (fun _ => True) fun fault =>
      fault.OfRunning → (∃ call, fault.Left named (rest + 1) call) ∧
        fault.frames.getLast?.map Fault.Frame.function = some entryPoint := by
  have hstill : ∀ cause : Fault.Cause, cause.kind = .entryPoint → ¬ (Fault.of cause).OfRunning := by
    rintro cause hkind (h | h) <;> exact absurd (hkind.symm.trans h) (by decide)
  have hmoved : ∀ (cause : Fault.Cause) (span : Span), cause.kind = .entryPoint →
      ¬ ((Fault.of cause).locate span).OfRunning := by
    intro cause span hkind h
    unfold Fault.OfRunning at h
    rw [Fault.kind_locate] at h
    exact hstill cause hkind h
  have hfound : Act.Ends context (consult fun function? _ _ => .ok (function? entryPoint) :
      Evaluation (Option Function)) (fun found => context.function? entryPoint = found)
      fun fault => fault.OfRunning → (∃ call, fault.Left named (rest + 1) call) ∧
        fault.frames.getLast?.map Fault.Frame.function = some entryPoint :=
    fun _ => ⟨fun _ heq => Except.ok.inj heq, fun _ heq => (by cases heq)⟩
  refine .bind hfound fun found hfunction => ?_
  cases found with
  | some function =>
    have hname : function.name.text = entryPoint := by
      have hbeq := List.find?_some hfunction
      exact beq_iff_eq.1 hbeq
    have hmem : function ∈ context.functions := List.mem_of_find?_eq_some hfunction
    dsimp only
    split
    · have hbody := ends_runBody hh (rises_callNamed (rises_enter hh rest)) hmem []
        function.name.span
      rw [hname] at hbody
      exact hbody.weaken (fun _ hv => hv) fun _ hfault hrunning =>
        ⟨⟨_, (hfault hrunning).1⟩, (hfault hrunning).2⟩
    · exact .fault fun hrunning => absurd hrunning (hmoved _ _ rfl)
  | none =>
    have hvalue : Act.Ends context (consult fun _ globals _ => .ok (globals.lookup entryPoint) :
        Evaluation (Option Value)) (fun _ => True)
        fun fault => fault.OfRunning → (∃ call, fault.Left named (rest + 1) call) ∧
          fault.frames.getLast?.map Fault.Frame.function = some entryPoint :=
      fun _ => ⟨fun _ _ => trivial, fun _ heq => (by cases heq)⟩
    refine .bind hvalue fun value _ => ?_
    cases value with
    | none => exact .fault fun hrunning => absurd hrunning (hstill _ rfl)
    | some v =>
      dsimp only
      split
      · exact .fault fun hrunning => absurd hrunning (hmoved _ _ rfl)
      · exact .fault fun hrunning => absurd hrunning (hstill _ rfl)

/-- A result that is not made of elements is no fault of running code. -/
theorem ends_collect (v : Value) :
    Act.Ends context (collect v) (fun _ => True) fun fault => ¬ fault.OfRunning := by
  refine .bind .read fun found _ => ?_
  split
  · exact .pure trivial
  · rename_i fault herror
    obtain ⟨cause, hkind, rfl⟩ := Value.elements_error herror
    refine .fault ?_
    rintro (h | h) <;> exact absurd (hkind.symm.trans h) (by decide)

end Evaluation

namespace Script.Program

/-- The evaluation of constants ends at this one: those before it have values, and it faults. -/
def FailsAt (program : Program) (limits : Limits) (value : Expr) : Prop :=
  ∃ before name later machine fault,
    program.items = before ++ .constant name value :: later ∧
    (Evaluation.loadConstants (Evaluation.callNamed (Evaluation.enter limits.callDepth))
      before).outcome ⟨program.functions, limits⟩ Machine.start = (.ok (), machine) ∧
    ((Evaluation.eval (Evaluation.callNamed (Evaluation.enter limits.callDepth))
      value).outcome ⟨program.functions, limits⟩ machine).1 = .error fault

/-- The name of a frame stands for this function. -/
def HousesFunction (program : Program) (name : String) (home : Home) : Prop :=
  ∃ f, program.Names name f ∧ home = f.home

/-- The code that the name of a frame stands for: the body of the one function with the name, or the
value of the constant that faults. -/
def Houses (program : Program) (limits : Limits) (name : String) (home : Home) : Prop :=
  program.HousesFunction name home ∨
    name = topLevel ∧ ∃ value, program.FailsAt limits value ∧ home = value.home

end Script.Program

/-- A traceback that tells the truth, the outermost frame first. -/
structure Fault.Truthful (program : Program) (limits : Limits) (fault : Fault) : Prop where
  /-- There is a frame. -/
  nonempty : fault.traceback ≠ []
  /-- There are no more frames than calls that may be open, apart from one. -/
  length : fault.traceback.length ≤ limits.callDepth + 1
  /-- The outermost frame is that of the constants or that of the entry point. -/
  outermost : ∃ frame, fault.traceback.head? = some frame ∧
    (frame.function = topLevel ∨ frame.function = entryPoint)
  /-- The constants have no other frame. -/
  inner : ∀ frame ∈ fault.traceback.tail, frame.function ≠ topLevel
  /-- Every frame is placed in the code that it names. -/
  inside : ∀ frame ∈ fault.traceback, ∃ home span, program.Houses limits frame.function home ∧
    frame.span = some span ∧ span.Inside home.span
  /-- Every frame but the innermost one is placed at a call in that code. -/
  calls : ∀ frame ∈ fault.traceback.dropLast, ∃ home span,
    program.Houses limits frame.function home ∧ frame.span = some span ∧
      span.Inside home.span ∧ span ∈ home.calls
  /-- The innermost frame is placed where the fault arose. -/
  innermost : ∃ frame, fault.traceback.getLast? = some frame ∧ frame.span = fault.span?

namespace Script

namespace Program

variable {program : Program} {limits : Limits} {depths : Depths} {source : String}

/-- In an accepted script, every function stands in one place. -/
theorem housed_of_ofText (h : Program.ofText depths source = .ok program) (limits : Limits) :
    Evaluation.Housed ⟨program.functions, limits⟩ program.HousesFunction := by
  intro f hf
  have hitem : f.extent ∈ program.extents :=
    List.mem_flatMap.2 ⟨.function f, mem_functions_iff.1 hf, List.mem_singleton.2 rfl⟩
  have hbody : f.body.extent ∈ f.extent.parts := by simp [Function.extent, Extent.parts]
  have hrow := (((Program.row_of_ofText h).mem hitem).parts.mem hbody).own
  rw [Block.span_extent] at hrow
  exact ⟨⟨f, (names_of_ofText h hf).1, rfl⟩, hrow, fun _ hcall => hcall⟩

/-- In an accepted script, the value of every constant stands in one place. -/
theorem holds_constant (h : Program.ofText depths source = .ok program) {name : Name} {value : Expr}
    (hc : .constant name value ∈ program.items) :
    value.home.Holds [value.extent] value.calls := by
  have hitem : value.extent ∈ program.extents :=
    List.mem_flatMap.2 ⟨.constant name value, hc, by simp [Item.extents]⟩
  have hrow := ((Program.row_of_ofText h).mem hitem).own
  rw [Expr.span_extent] at hrow
  exact ⟨hrow, fun _ hcall => hcall⟩

/-- No function has the name that frames of constants have. -/
theorem ne_topLevel_of_housesFunction (h : Program.ofText depths source = .ok program)
    {name : String} {home : Home} (hn : program.HousesFunction name home) : name ≠ topLevel := by
  obtain ⟨f, ⟨hf, rfl, -⟩, -⟩ := hn
  obtain ⟨c, rest, hname, hstart⟩ := (names_of_ofText h hf).2
  intro heq
  have hfirst : topLevel.toList.head? = some '<' := by decide
  rw [← heq, hname, List.head?_cons, Option.some_inj] at hfirst
  rw [hfirst] at hstart
  exact absurd hstart (by decide)

/-- A traceback that is a trail tells the truth, when it begins and goes on as it should. -/
theorem truthful_of_trail {fault : Fault} {origin : Span} (hspan : fault.span? = some origin)
    (ht : Trail (program.Houses limits) origin fault.frames)
    (hlength : fault.frames.length ≤ limits.callDepth + 1)
    (hlast : ∃ frame, fault.frames.getLast? = some frame ∧
      (frame.function = topLevel ∨ frame.function = entryPoint))
    (hinner : ∀ frame ∈ fault.frames.dropLast, frame.function ≠ topLevel) :
    fault.Truthful program limits := by
  obtain ⟨first, callers, hframes, hfirst, hcallers⟩ := ht.split
  have hcall : ∀ frame ∈ fault.traceback.dropLast, ∃ home span,
      program.Houses limits frame.function home ∧ frame.span = some span ∧
        span.Inside home.span ∧ span ∈ home.calls := by
    intro frame hframe
    rw [Fault.traceback, List.dropLast_reverse, hframes, List.tail_cons, List.mem_reverse] at hframe
    exact hcallers frame hframe
  refine ⟨?_, ?_, ?_, fun frame hframe => ?_, fun frame hframe => ?_, hcall, ?_⟩
  · simp [Fault.traceback, hframes]
  · rw [Fault.traceback, List.length_reverse]
    exact hlength
  · rw [Fault.traceback, List.head?_reverse]
    exact hlast
  · rw [Fault.traceback, List.tail_reverse, List.mem_reverse] at hframe
    exact hinner frame hframe
  · rw [Fault.traceback, List.mem_reverse] at hframe
    exact ht.inside frame hframe
  · refine ⟨first, ?_, by rw [hfirst, hspan]⟩
    rw [Fault.traceback, List.getLast?_reverse, hframes, List.head?_cons]

/-- When a run of an accepted script ends with a fault of running code, its traceback tells the
truth: it leads from the constant that could not be evaluated, or from the entry point, through one
call after the other to where the fault arose, and it is no longer than the calls that may be open.
-/
theorem run_truthful (h : Program.ofText depths source = .ok program)
    (hd : 1 ≤ limits.callDepth) {fault : Fault} (hf : (program.run limits).1 = .error fault)
    (hr : fault.OfRunning) : fault.Truthful program limits := by
  obtain ⟨rest, hrest⟩ : ∃ rest, limits.callDepth = rest + 1 :=
    ⟨limits.callDepth - 1, by omega⟩
  have hh := housed_of_ofText h limits
  have hcalls := Evaluation.rises_callNamed (Evaluation.rises_enter hh limits.callDepth)
  have hfunctions : ∀ name home, program.HousesFunction name home → program.Houses limits name home :=
    fun _ _ hn => .inl hn
  unfold Program.run Evaluation.runProgram at hf
  rcases hload : (Evaluation.loadConstants (Evaluation.callNamed (Evaluation.enter limits.callDepth))
    program.items).outcome ⟨program.functions, limits⟩ Machine.start with ⟨found | _, machine⟩
  · rw [Act.outcome_bind_error _ _ hload] at hf
    cases hf
    obtain ⟨before, name, value, later, middle, inner, hitems, hbefore, hvalue, rfl⟩ :=
      Evaluation.loadConstants_error (by rw [hload])
    have hitem : Item.constant name value ∈ program.items := by
      rw [hitems]
      exact List.mem_append_right _ List.mem_cons_self
    have hinner := (Evaluation.places_eval hcalls value (holds_constant h hitem) middle).2 inner
      hvalue hr
    have hhome : program.Houses limits topLevel value.home :=
      .inr ⟨rfl, value, ⟨before, name, later, middle, inner, hitems, hbefore, hvalue⟩, rfl⟩
    have hleft : (inner.leave topLevel name.span).Left (program.Houses limits)
        (limits.callDepth + 1) name.span := (hinner.1.mono hfunctions).leave hinner.2 hhome
    obtain ⟨origin, hspan, htrail⟩ := hleft.trail
    refine truthful_of_trail hspan htrail hleft.depth ?_ fun frame hframe => ?_
    · exact ⟨⟨topLevel, inner.site.or inner.span?⟩, by simp [Fault.leave], .inl rfl⟩
    · have hmem : frame ∈ inner.frames := by simpa [Fault.leave] using hframe
      obtain ⟨home, hn⟩ := hinner.1.names frame hmem
      exact ne_topLevel_of_housesFunction h hn
  · rw [Act.outcome_bind_ok _ _ hload, hrest] at hf
    have hends : Act.Ends ⟨program.functions, limits⟩
        (Evaluation.callEntryPoint (Evaluation.enter (rest + 1)) program >>= Evaluation.collect)
        (fun _ => True) fun fault => fault.OfRunning →
          (∃ call, fault.Left program.HousesFunction (rest + 1) call) ∧
            fault.frames.getLast?.map Fault.Frame.function = some entryPoint :=
      .bind (Evaluation.ends_callEntryPoint hh rest program) fun v _ =>
        (Evaluation.ends_collect v).weaken (fun _ hv => hv)
          fun _ hother hrunning => absurd hrunning hother
    obtain ⟨⟨call, hleft⟩, hlast⟩ := (hends machine).2 fault hf hr
    obtain ⟨origin, hspan, htrail⟩ := hleft.trail
    have hlength : fault.frames.length ≤ limits.callDepth + 1 := by
      have hdepth := hleft.depth
      omega
    refine truthful_of_trail hspan (htrail.mono hfunctions) hlength ?_ fun frame hframe => ?_
    · obtain ⟨frame, hframe, hname⟩ := Option.map_eq_some_iff.1 hlast
      exact ⟨frame, hframe, .inr hname⟩
    · obtain ⟨home, -, hn, -⟩ := htrail.inside frame (List.dropLast_subset _ hframe)
      exact ne_topLevel_of_housesFunction h hn

/-- Limits that let two calls be open. -/
def nestedCalls : Limits := ⟨0, 100, 2, 1, 1, 2, 4, 100⟩

set_option maxRecDepth 4000 in
/-- A division by zero in a function that the entry point calls: the traceback has both of them. -/
theorem run_truthful_nested :
    ∃ program fault,
      Program.ofText ⟨2, 4⟩ "fn f()\x7b1/0;\x7dfn footprint()\x7bf();\x7d" = .ok program ∧
      (program.run nestedCalls).1 = .error fault ∧ fault.OfRunning ∧
      fault.traceback = [⟨"footprint", some ⟨27, 30⟩⟩, ⟨"f", some ⟨7, 10⟩⟩] ∧
      fault.Truthful program nestedCalls := by
  have hread : readLexemes 0 0 [] [] "fn f()\x7b1/0;\x7dfn footprint()\x7bf();\x7d".toList =
      ([⟨.wordFn, ⟨0, 2⟩⟩, ⟨.blank, ⟨2, 3⟩⟩, ⟨.name "f", ⟨3, 4⟩⟩, ⟨.leftParen, ⟨4, 5⟩⟩,
        ⟨.rightParen, ⟨5, 6⟩⟩, ⟨.leftBrace, ⟨6, 7⟩⟩, ⟨.int 1, ⟨7, 8⟩⟩, ⟨.slash, ⟨8, 9⟩⟩,
        ⟨.int 0, ⟨9, 10⟩⟩, ⟨.semicolon, ⟨10, 11⟩⟩, ⟨.rightBrace, ⟨11, 12⟩⟩, ⟨.wordFn, ⟨12, 14⟩⟩,
        ⟨.blank, ⟨14, 15⟩⟩, ⟨.name "footprint", ⟨15, 24⟩⟩, ⟨.leftParen, ⟨24, 25⟩⟩,
        ⟨.rightParen, ⟨25, 26⟩⟩, ⟨.leftBrace, ⟨26, 27⟩⟩, ⟨.name "f", ⟨27, 28⟩⟩,
        ⟨.leftParen, ⟨28, 29⟩⟩, ⟨.rightParen, ⟨29, 30⟩⟩, ⟨.semicolon, ⟨30, 31⟩⟩,
        ⟨.rightBrace, ⟨31, 32⟩⟩], []) := by decide +kernel
  have hprogram : Program.ofText ⟨2, 4⟩ "fn f()\x7b1/0;\x7dfn footprint()\x7bf();\x7d" =
      .ok ⟨[.function ⟨⟨"f", ⟨3, 4⟩⟩, [], .mk ⟨6, 12⟩ [.expr ⟨7, 11⟩
          (.binary ⟨7, 10⟩ .div (.int ⟨7, 8⟩ 1) (.int ⟨9, 10⟩ 0))], ⟨0, 12⟩⟩,
        .function ⟨⟨"footprint", ⟨15, 24⟩⟩, [], .mk ⟨26, 32⟩ [.expr ⟨27, 31⟩
          (.call ⟨27, 30⟩ (.name ⟨27, 28⟩ "f") [])], ⟨12, 32⟩⟩]⟩ := by
    rw [Program.ofText, tokenize, hread]
    rfl
  exact ⟨_, _, hprogram, rfl, .inl rfl, rfl, run_truthful hprogram (by decide) rfl (.inl rfl)⟩

end Program

end Script

end LandPattern
