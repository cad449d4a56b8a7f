import LandPattern.Proofs.Run.Parallel
import LandPattern.Proofs.Script.Names

/-!
# Rearranged definitions

A run finds functions by their names, and meets constants in the order they are written. Where
functions stand, among themselves and between constants, therefore makes no difference to it, as
long as no two definitions share a name.
-/

namespace LandPattern

open Script (Function Item Program)

/-- A row and another order of it have the same first entry of some kind, when there is one at most.
-/
theorem find?_eq_of_perm {α : Type} {p : α → Bool} {row other : List α} (h : row.Perm other)
    (hone : ∀ a ∈ row, ∀ b ∈ row, p a = true → p b = true → a = b) :
    other.find? p = row.find? p := by
  cases hfound : row.find? p with
  | none =>
    have hnone : ∀ a ∈ other, ¬ p a = true := fun a ha =>
      List.find?_eq_none.1 hfound a (h.mem_iff.2 ha)
    exact List.find?_eq_none.2 hnone
  | some a =>
    have hmem : a ∈ row := List.mem_of_find?_eq_some hfound
    have ha : p a = true := List.find?_some hfound
    have hsome : (other.find? p).isSome := List.find?_isSome.2 ⟨a, h.mem_iff.1 hmem, ha⟩
    obtain ⟨b, hb⟩ := Option.isSome_iff_exists.1 hsome
    have hbmem : b ∈ row := h.mem_iff.2 (List.mem_of_find?_eq_some hb)
    have hsame : a = b := hone a hmem b hbmem ha (List.find?_some hb)
    rw [hb, hsame]

namespace Script

/-- The definition is one of a constant. -/
def Item.isConstant : Item → Bool
  | .function _ => false
  | .constant _ _ => true

/-- The other script has the same definitions, and its constants stand in the same order. Functions
may stand anywhere. -/
structure Program.Rearranged (program other : Program) : Prop where
  /-- The definitions are the same. -/
  items : program.items.Perm other.items
  /-- The constants follow one another in the same order. -/
  constants : other.items.filter Item.isConstant = program.items.filter Item.isConstant

namespace Program.Rearranged

variable {program other : Program}

/-- A name stands for the same function in both scripts. -/
theorem function?_eq (h : program.Rearranged other) (ha : program.items.Pairwise Item.Apart)
    (limits : Limits) (name : String) :
    Context.function? ⟨other.functions, limits⟩ name =
      Context.function? ⟨program.functions, limits⟩ name := by
  have hperm : program.functions.Perm other.functions := h.items.filterMap _
  refine find?_eq_of_perm hperm fun f hf g hg hfname hgname => ?_
  have hnames : f.name.text = g.name.text :=
    (beq_iff_eq.1 hfname).trans (beq_iff_eq.1 hgname).symm
  have hitems : Item.function f = Item.function g :=
    eq_of_apart ha (mem_functions_iff.1 hf) (mem_functions_iff.1 hg) hnames
  exact Item.function.inj hitems

/-- A name of a definition stands in the same place in both scripts. -/
theorem findName_eq (h : program.Rearranged other) (ha : program.items.Pairwise Item.Apart)
    (text : String) :
    (other.items.map Item.name).find? (fun name => name.text == text) =
      (program.items.map Item.name).find? fun name => name.text == text := by
  have hitem : other.items.find? (fun item => item.name.text == text) =
      program.items.find? fun item => item.name.text == text := by
    refine find?_eq_of_perm h.items fun item hitem found hfound hname hsame => ?_
    exact eq_of_apart ha hitem hfound ((beq_iff_eq.1 hname).trans (beq_iff_eq.1 hsame).symm)
  rw [List.find?_map, List.find?_map]
  exact congrArg (Option.map Item.name) hitem

end Program.Rearranged

end Script

/-- The same limits, and the same function for every name. -/
structure Context.Agrees (context other : Context) : Prop where
  limits : other.limits = context.limits
  function? : ∀ name, other.function? name = context.function? name

namespace Evaluation

variable {context other : Context} {α β : Type}

/-- The step in one context has the outcome of the other step in the other context. -/
def Carries (context other : Context) (act moved : Evaluation α) : Prop :=
  ∀ machine, moved.outcome other machine = act.outcome context machine

namespace Carries

variable {act moved : Evaluation α}

theorem bind {next more : α → Evaluation β} (h : Carries context other act moved)
    (hn : ∀ value, Carries context other (next value) (more value)) :
    Carries context other (act >>= next) (moved >>= more) := by
  intro machine
  rw [Act.outcome_bind, Act.outcome_bind, h machine]
  rcases act.outcome context machine with ⟨fault | value, after⟩
  · rfl
  · exact hn value after

theorem mapFault {change : Fault → Fault} (h : Carries context other act moved) :
    Carries context other (Act.mapFault change act) (Act.mapFault change moved) := by
  intro machine
  rw [Act.outcome_mapFault, Act.outcome_mapFault, h machine]

theorem closing {close : Machine → Machine} (h : Carries context other act moved) :
    Carries context other (Act.closing close act) (Act.closing close moved) := by
  intro machine
  rw [Act.outcome_closing, Act.outcome_closing, h machine]

theorem modify (change : Machine → Machine) :
    Carries context other (modify change : Evaluation PUnit) (modify change) := fun _ => rfl

theorem ofMetered (h : context.Agrees other) (act : Metered α) :
    Carries context other (ofMetered act) (ofMetered act) := by
  intro machine
  simp only [Evaluation.ofMetered, Act.outcome_ofOutcome, h.limits]

theorem consult (h : context.Agrees other)
    (look : (String → Option Function) → Scope → Option Locals → Except Refusal α) :
    Carries context other (consult look) (consult look) := by
  intro machine
  have hlook : other.function? = context.function? := funext h.function?
  simp only [Evaluation.consult, Act.outcome_bind, Act.outcome_read, Act.outcome_get, hlook]
  cases look context.function? machine.globals machine.frames.head? <;> rfl

theorem modifyLocals (change : Locals → Locals) :
    Carries context other (modifyLocals change) (modifyLocals change) := by
  intro machine
  rcases machine with ⟨globals, _ | ⟨locals, outer⟩, meter, history⟩ <;> rfl

theorem collect (h : context.Agrees other) (v : Value) :
    Carries context other (collect v) (collect v) := by
  intro machine
  simp only [Evaluation.collect, Act.outcome_bind, Act.outcome_read, h.limits]
  cases v.elements context.limits.collection <;> rfl

theorem refuseCall (h : context.Agrees other) (callSpan : Script.Span) :
    Carries context other (refuseCall callSpan) (refuseCall callSpan) := by
  intro machine
  simp only [Evaluation.refuseCall, Act.outcome_bind, Act.outcome_read, h.limits]
  rfl

end Carries

/-- Steps that are carried over make up evaluations that are. -/
theorem Parallel.carries (hc : context.Agrees other) {act moved : Evaluation α}
    (h : Parallel (Carries context other) act moved) : Carries context other act moved := by
  induction h with
  | pure | fault => exact fun _ => rfl
  | bind _ _ ih ihn => exact .bind ih ihn
  | metered _ => exact .ofMetered hc _
  | countRounds rounds => exact .ofMetered hc _
  | consult look => exact .consult hc look
  | modifyLocals change => exact .modifyLocals change
  | counted _ ih => exact .bind (.modify _) fun _ => .closing ih
  | mapFault _ _ ih => exact .mapFault ih
  | noting _ ih => exact .bind ih fun v => .bind (.modify _) fun _ _ => rfl
  | inBlock _ ih => exact .bind (.modifyLocals _) fun _ => .closing ih
  | declare name v => exact .modify _
  | collect v => exact .collect hc v
  | call h => exact h

/-- A function is entered alike in both contexts, however many calls may still be opened. -/
theorem carries_enter (hc : context.Agrees other) (remaining : Nat) (function : Function)
    (params : Scope) (callSpan : Script.Span) :
    Carries context other (enter remaining function params callSpan)
      (enter remaining function params callSpan) := by
  induction remaining generalizing function params callSpan with
  | zero => exact .refuseCall hc callSpan
  | succ rest ih =>
    have hcallers : Parallel.Callers (Carries context other) (callNamed (enter rest))
        (callNamed (enter rest)) := Parallel.callNamed ih
    have hbody : Carries context other (execBlock (callNamed (enter rest)) function.body)
        (execBlock (callNamed (enter rest)) function.body) :=
      (Parallel.execBlock hcallers function.body).carries hc
    have hcall : Carries context other
        (inCall (Locals.ofParams params) (execBlock (callNamed (enter rest)) function.body))
        (inCall (Locals.ofParams params) (execBlock (callNamed (enter rest)) function.body)) :=
      .bind (.modify _) fun _ => .closing hbody
    refine .mapFault (.bind hcall fun flow => ?_)
    cases flow with
    | giveBack v => exact fun _ => rfl
    | next => exact fun _ => rfl

/-- Functions among the constants are passed over. -/
theorem loadConstants_filter (caller : Caller) (items : List Item) :
    loadConstants caller (items.filter Item.isConstant) = loadConstants caller items := by
  induction items with
  | nil => rfl
  | cons item rest ih =>
    cases item with
    | function definition => exact ih
    | constant name value =>
      rw [List.filter_cons_of_pos rfl, loadConstants, loadConstants, ih]

/-- Rearranged definitions are evaluated in the same steps. -/
theorem runProgram_rearranged {program moved : Program} (h : program.Rearranged moved)
    (ha : program.items.Pairwise Item.Apart) (enter : Entrance) :
    runProgram enter moved = runProgram enter program := by
  have hconstants : loadConstants (callNamed enter) moved.items =
      loadConstants (callNamed enter) program.items := by
    rw [← loadConstants_filter, h.constants, loadConstants_filter]
  have hentry : callEntryPoint enter moved = callEntryPoint enter program := by
    simp only [callEntryPoint, h.findName_eq ha]
  rw [runProgram, runProgram, hconstants, hentry]

end Evaluation

namespace Script.Program

/-- However the functions of an accepted script are moved about, among one another and between its
constants, its run is the same under all limits: the same elements or the same fault with all its
places and frames, after the same operations. -/
theorem run_rearranged {program moved : Program} {depth : Nat} (h : program.problems depth = [])
    (hr : program.Rearranged moved) (limits : Limits) : moved.run limits = program.run limits := by
  have hapart : program.items.Pairwise Item.Apart := by
    simp only [Program.problems, List.append_eq_nil_iff] at h
    exact (apart_of_definitionProblems h.1.1).2
  have hcontext : Context.Agrees ⟨program.functions, limits⟩ ⟨moved.functions, limits⟩ :=
    ⟨rfl, hr.function?_eq hapart limits⟩
  have hrun : Evaluation.Carries ⟨program.functions, limits⟩ ⟨moved.functions, limits⟩
      (Evaluation.runProgram (Evaluation.enter limits.callDepth) program)
      (Evaluation.runProgram (Evaluation.enter limits.callDepth) program) :=
    (Evaluation.Parallel.runProgram (Evaluation.carries_enter hcontext _) program).carries hcontext
  rw [run, run, Evaluation.runProgram_rearranged hr hapart]
  exact hrun Machine.start

/-- The function of `let a=f();fn f()\x7breturn 1/0;\x7d`. -/
def quotient : Function :=
  ⟨⟨"f", ⟨12, 13⟩⟩, [], .mk ⟨15, 28⟩ [.giveBack ⟨16, 27⟩
    (some (.binary ⟨23, 26⟩ .div (.int ⟨23, 24⟩ 1) (.int ⟨25, 26⟩ 0)))], ⟨9, 28⟩⟩

/-- The constant of `let a=f();fn f()\x7breturn 1/0;\x7d`. -/
def quotientOf : Item := .constant ⟨"a", ⟨4, 5⟩⟩ (.call ⟨6, 9⟩ (.name ⟨6, 7⟩ "f") [])

/-- The function is moved in front of the constant that calls it: the division by zero in it is the
same fault, with the frame of the constants and that of the function. -/
theorem run_rearranged_quotient :
    let program : Program := ⟨[quotientOf, .function quotient]⟩
    let moved : Program := ⟨[.function quotient, quotientOf]⟩
    program.problems 2 = [] ∧ program.Rearranged moved ∧
      moved.run .standard = program.run .standard ∧
      ∃ fault, (moved.run .standard).1 = .error fault ∧
        fault.cause = .refusal (.divisionByZero .div) ∧
        fault.traceback = [⟨"<top-level>", some ⟨6, 9⟩⟩, ⟨"f", some ⟨23, 26⟩⟩] := by
  intro program moved
  have hproblems : program.problems 2 = [] := rfl
  have hmoved : program.Rearranged moved := ⟨.swap _ _ _, rfl⟩
  have hsame : moved.run .standard = program.run .standard :=
    run_rearranged hproblems hmoved .standard
  exact ⟨hproblems, hmoved, hsame, _, rfl, rfl, rfl⟩

end Script.Program

end LandPattern
