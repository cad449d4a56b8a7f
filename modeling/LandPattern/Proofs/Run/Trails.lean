import LandPattern.Proofs.Run.Endings
import LandPattern.Proofs.Script.Extents
import LandPattern.Run.Eval

/-!
# Trails of calls

Where a fault may point while it passes out of an evaluation. Code stands in a home: the body of a
function or the value of a constant. A fault that arose in a home is placed there. One that passed
out of functions called from the home has left a trail: a frame for every function, each with a call
in its body apart from the innermost one, which has the place of the fault.
-/

namespace LandPattern

namespace Script

mutual

/-- Where the calls in an expression stand. -/
def Expr.calls (e : Expr) : List Span :=
  match e with
  | .list _ items | .tuple _ items => itemCalls items
  | .unary _ _ operand => operand.calls
  | .binary _ _ left right => left.calls ++ right.calls
  | .call s callee args => s :: (callee.calls ++ argumentCalls args)
  | .method _ receiver _ args => receiver.calls ++ argumentCalls args
  | .field _ object _ => object.calls
  | .index _ object position => object.calls ++ position.calls
  | _ => []
termination_by structural e

/-- Where the calls in items stand. -/
def itemCalls (items : List Expr) : List Span :=
  match items with
  | [] => []
  | e :: rest => e.calls ++ itemCalls rest
termination_by structural items

/-- Where the calls in arguments stand. -/
def argumentCalls (args : List Argument) : List Span :=
  match args with
  | [] => []
  | .positional e :: rest => e.calls ++ argumentCalls rest
  | .keyword _ e :: rest => e.calls ++ argumentCalls rest
termination_by structural args

end

mutual

/-- Where the calls in a statement stand. -/
def Stmt.calls (s : Stmt) : List Span :=
  match s with
  | .bind _ _ value => value.calls
  | .assign _ target _ value => target.calls ++ value.calls
  | .expr _ value => value.calls
  | .giveBack _ none => []
  | .giveBack _ (some value) => value.calls
  | .choose _ branches otherwise => branchCalls branches ++ otherwiseCalls otherwise
  | .loop _ _ iterable body => iterable.calls ++ body.calls
termination_by structural s

/-- Where the calls in statements stand. -/
def statementCalls (statements : List Stmt) : List Span :=
  match statements with
  | [] => []
  | s :: rest => s.calls ++ statementCalls rest
termination_by structural statements

/-- Where the calls in a block stand. -/
def Block.calls (block : Block) : List Span :=
  match block with
  | .mk _ statements => statementCalls statements
termination_by structural block

/-- Where the calls in branches stand. -/
def branchCalls (branches : List Branch) : List Span :=
  match branches with
  | [] => []
  | .mk condition body :: rest => condition.calls ++ body.calls ++ branchCalls rest
termination_by structural branches

/-- Where the calls in the last block of a choice stand. -/
def otherwiseCalls (otherwise : Option Block) : List Span :=
  match otherwise with
  | none => []
  | some body => body.calls
termination_by structural otherwise

end

/-- A place for code, and where the calls in it stand. -/
structure Home where
  /-- From where on and up to where code stands here. -/
  span : Span
  /-- The calls. -/
  calls : List Span

/-- The body of a function as a home. -/
def Function.home (f : Function) : Home := ⟨f.body.span, f.body.calls⟩

/-- The value of a constant as a home. -/
def Expr.home (e : Expr) : Home := ⟨e.span, e.calls⟩

/-- Code with these places and these calls stands here. -/
structure Home.Holds (home : Home) (xs : List Extent) (calls : List Span) : Prop where
  /-- All places lie in the home. -/
  row : Row home.span.start home.span.stop xs
  /-- All calls are calls of the home. -/
  calls : ∀ call ∈ calls, call ∈ home.calls

namespace Home.Holds

variable {home : Home} {x : Extent} {xs ys : List Extent} {call : Span} {calls others : List Span}

/-- What a piece of code is made of stands where the piece does. -/
theorem parts (h : home.Holds [x] calls) : home.Holds x.parts calls :=
  ⟨h.row.parts, h.calls⟩

/-- Two stretches of code stand where they do together. -/
theorem append (h : home.Holds (xs ++ ys) (calls ++ others)) :
    home.Holds xs calls ∧ home.Holds ys others :=
  ⟨⟨h.row.sublist (List.sublist_append_left xs ys),
      fun call hcall => h.calls call (List.mem_append_left others hcall)⟩,
    ⟨h.row.sublist (List.sublist_append_right xs ys),
      fun call hcall => h.calls call (List.mem_append_right calls hcall)⟩⟩

/-- A piece of code and what follows it stand where they do together. -/
theorem both (h : home.Holds (x :: xs) (calls ++ others)) :
    home.Holds [x] calls ∧ home.Holds xs others :=
  append (show home.Holds ([x] ++ xs) (calls ++ others) from h)

theorem first (h : home.Holds (x :: xs) calls) : home.Holds [x] calls :=
  ⟨h.row.mem List.mem_cons_self, h.calls⟩

theorem rest (h : home.Holds (x :: xs) calls) : home.Holds xs calls :=
  ⟨h.row.sublist (List.sublist_cons_self x xs), h.calls⟩

theorem afterCall (h : home.Holds xs (call :: calls)) : home.Holds xs calls :=
  ⟨h.row, fun other hother => h.calls other (List.mem_cons_of_mem _ hother)⟩

theorem inside (h : home.Holds [x] calls) : x.span.Inside home.span :=
  ⟨(Row.singleton_iff.1 h.row).1, (Row.singleton_iff.1 h.row).2.2.1⟩

end Home.Holds

end Script

open Script (Function Home Span)

/-- The frames that a fault left, innermost first: the innermost one has the place where the fault
arose, and every other one has a call in the home that it names. -/
inductive Trail (named : String → Home → Prop) (origin : Span) : List Fault.Frame → Prop where
  | innermost {name : String} {home : Home} (hn : named name home)
    (hi : origin.Inside home.span) : Trail named origin [⟨name, some origin⟩]
  | caller {name : String} {home : Home} {frames : List Fault.Frame} {call : Span}
    (h : Trail named origin frames) (hn : named name home) (hc : call ∈ home.calls)
    (hi : call.Inside home.span) : Trail named origin (frames ++ [⟨name, some call⟩])

namespace Trail

variable {named others : String → Home → Prop} {origin : Span} {frames : List Fault.Frame}

theorem mono (h : Trail named origin frames) (hn : ∀ name home, named name home → others name home) :
    Trail others origin frames := by
  induction h with
  | innermost hnamed hi => exact .innermost (hn _ _ hnamed) hi
  | caller _ hnamed hc hi ih => exact .caller ih (hn _ _ hnamed) hc hi

/-- The innermost frame has the place of the fault, and all others have calls. -/
theorem split (h : Trail named origin frames) :
    ∃ first callers, frames = first :: callers ∧ first.span = some origin ∧
      ∀ frame ∈ callers, ∃ home call, named frame.function home ∧ frame.span = some call ∧
        call.Inside home.span ∧ call ∈ home.calls := by
  induction h with
  | innermost hn hi => exact ⟨_, [], rfl, rfl, fun _ hframe => absurd hframe List.not_mem_nil⟩
  | @caller name home frames call _ hn hc hi ih =>
    obtain ⟨first, callers, rfl, hfirst, hcallers⟩ := ih
    refine ⟨first, callers ++ [⟨name, some call⟩], rfl, hfirst, fun frame hframe => ?_⟩
    rcases List.mem_append.1 hframe with hold | hnew
    · exact hcallers frame hold
    · rw [List.mem_singleton.1 hnew]
      exact ⟨home, call, hn, rfl, hi, hc⟩

/-- Every frame lies in the home that it names. -/
theorem inside (h : Trail named origin frames) :
    ∀ frame ∈ frames, ∃ home span, named frame.function home ∧ frame.span = some span ∧
      span.Inside home.span := by
  induction h with
  | @innermost name home hn hi =>
    intro frame hframe
    rw [List.mem_singleton.1 hframe]
    exact ⟨home, origin, hn, rfl, hi⟩
  | @caller name home frames call _ hn hc hi ih =>
    intro frame hframe
    rcases List.mem_append.1 hframe with hold | hnew
    · exact ih frame hold
    · rw [List.mem_singleton.1 hnew]
      exact ⟨home, call, hn, rfl, hi⟩

end Trail

namespace Fault

/-- The fault is one of running code: an operation was refused, or there were too many. -/
def OfRunning (fault : Fault) : Prop := fault.kind = .runtime ∨ fault.kind = .timeout

/-- The fault has left no function, and its place, if it has one, lies here. -/
structure Fresh (home : Home) (fault : Fault) : Prop where
  /-- No function was left. -/
  frames : fault.frames = []
  /-- No call is known. -/
  site : fault.site = none
  /-- Its place lies here. -/
  inside : ∀ s, fault.span? = some s → s.Inside home.span

/-- The fault has left functions, at most so many; it is known where it arose and where the
outermost of the functions was called. -/
structure Left (named : String → Home → Prop) (depth : Nat) (call : Span) (fault : Fault) : Prop where
  /-- The frames lead from where the fault arose. -/
  trail : ∃ origin, fault.span? = some origin ∧ Trail named origin fault.frames
  /-- There is a frame for every function. -/
  depth : fault.frames.length ≤ depth
  /-- The outermost function was called here. -/
  site : fault.site = some call

/-- The fault passes out of code that stands here: it arose in the code, or in a function that the
code called. -/
inductive Rising (named : String → Home → Prop) (depth : Nat) (home : Home) (fault : Fault) :
    Prop where
  | fresh (h : fault.Fresh home)
  | left {call : Span} (h : fault.Left named depth call) (hc : call ∈ home.calls)
    (hi : call.Inside home.span)

theorem fresh_of (home : Home) (cause : Cause) : (Fault.of cause).Fresh home :=
  ⟨rfl, rfl, fun _ heq => by cases heq⟩

theorem kind_locate (fault : Fault) (span : Span) : (fault.locate span).kind = fault.kind := by
  rw [kind, kind, cause_locate]

theorem frames_locate (fault : Fault) (span : Span) : (fault.locate span).frames = fault.frames := by
  unfold locate mark
  split <;> rfl

theorem site_locate (fault : Fault) (span : Span) : (fault.locate span).site = fault.site := by
  unfold locate mark
  split <;> rfl

theorem locate_of_span? {fault : Fault} {origin : Span} (h : fault.span? = some origin)
    (span : Span) : fault.locate span = fault := by
  rw [locate, mark, if_pos (by rw [h]; rfl)]

variable {named : String → Home → Prop} {depth : Nat} {home : Home} {fault : Fault} {span : Span}

theorem Fresh.locate (h : fault.Fresh home) (hs : span.Inside home.span) :
    (fault.locate span).Fresh home where
  frames := by rw [frames_locate, h.frames]
  site := by rw [site_locate, h.site]
  inside s heq := by
    rw [Fault.locate, span?_mark] at heq
    cases hspan : fault.span? with
    | none =>
      rw [hspan] at heq
      cases heq
      exact hs
    | some origin =>
      rw [hspan] at heq
      cases heq
      exact h.inside _ hspan

/-- A fault that is placed in its home passes out of it all the same. -/
theorem Rising.locate (h : fault.Rising named depth home) (hs : span.Inside home.span) :
    (fault.locate span).Rising named depth home := by
  cases h with
  | fresh h => exact .fresh (h.locate hs)
  | left h hc hi =>
    obtain ⟨origin, horigin, -⟩ := h.trail
    rw [locate_of_span? horigin]
    exact .left h hc hi

/-- A fault that passes out of a home, with a place, leaves a frame for it. -/
theorem Rising.leave {name : String} {call : Span} (h : fault.Rising named depth home)
    (hspan : fault.span?.isSome) (hn : named name home) :
    (fault.leave name call).Left named (depth + 1) call := by
  obtain ⟨origin, horigin⟩ := Option.isSome_iff_exists.1 hspan
  cases h with
  | fresh h =>
    have hframes : (fault.leave name call).frames = [⟨name, some origin⟩] := by
      simp only [Fault.leave, h.frames, h.site, horigin, Option.none_or, List.nil_append]
    refine ⟨⟨origin, horigin, ?_⟩, ?_, rfl⟩
    · rw [hframes]
      exact .innermost hn (h.inside origin horigin)
    · rw [hframes, List.length_singleton]
      exact Nat.le_add_left 1 depth
  | @left earlier h hc hi =>
    obtain ⟨origin', horigin', htrail⟩ := h.trail
    have hframes : (fault.leave name call).frames =
        fault.frames ++ [⟨name, some earlier⟩] := by
      simp only [Fault.leave, h.site, Option.some_or]
    refine ⟨⟨origin', horigin', ?_⟩, ?_, rfl⟩
    · rw [hframes]
      exact .caller htrail hn hc hi
    · rw [hframes, List.length_append, List.length_singleton]
      exact Nat.succ_le_succ h.depth

/-- Every frame behind a fault that rises is named. -/
theorem Rising.names (h : fault.Rising named depth home) :
    ∀ frame ∈ fault.frames, ∃ home, named frame.function home := by
  cases h with
  | fresh h =>
    rw [h.frames]
    exact fun _ hframe => absurd hframe List.not_mem_nil
  | left h hc hi =>
    obtain ⟨origin, -, htrail⟩ := h.trail
    intro frame hframe
    obtain ⟨home, -, hn, -⟩ := htrail.inside frame hframe
    exact ⟨home, hn⟩

/-- What names more homes names those of a fault that rises. -/
theorem Rising.mono {others : String → Home → Prop} (h : fault.Rising named depth home)
    (hn : ∀ name home, named name home → others name home) :
    fault.Rising others depth home := by
  cases h with
  | fresh h => exact .fresh h
  | left h hc hi =>
    obtain ⟨origin, horigin, htrail⟩ := h.trail
    exact .left ⟨⟨origin, horigin, htrail.mono hn⟩, h.depth, h.site⟩ hc hi

end Fault

namespace Evaluation

variable {context : Context} {named : String → Home → Prop} {depth : Nat} {home : Home} {α β : Type}
variable {act : Evaluation α} {promise : α → Prop} {span : Span}

/-- Faults of running code pass out of the home. -/
abbrev Rises (context : Context) (named : String → Home → Prop) (depth : Nat) (home : Home)
    (act : Evaluation α) (promise : α → Prop) : Prop :=
  Act.Ends context act promise fun fault => fault.OfRunning → fault.Rising named depth home

/-- Faults of running code pass out of the home with a place. -/
abbrev Places (context : Context) (named : String → Home → Prop) (depth : Nat) (home : Home)
    (act : Evaluation α) (promise : α → Prop) : Prop :=
  Act.Ends context act promise fun fault =>
    fault.OfRunning → fault.Rising named depth home ∧ fault.span?.isSome

theorem rises_of_places (h : Places context named depth home act promise) :
    Rises context named depth home act promise :=
  h.weaken (fun _ hv => hv) fun _ hfault hrunning => (hfault hrunning).1

theorem places_locating (h : Rises context named depth home act promise)
    (hs : span.Inside home.span) :
    Places context named depth home (locating span act) promise := by
  refine h.mapFault fun fault hfault hrunning => ?_
  have hkind : fault.OfRunning := by
    unfold Fault.OfRunning at hrunning ⊢
    rwa [fault.kind_locate] at hrunning
  refine ⟨(hfault hkind).locate hs, ?_⟩
  rw [Fault.locate, Fault.span?_mark]
  rfl

instance : Fault.Admits (Fault.Fresh home) where
  refusal _ := Fault.fresh_of home _
  eagerOperator _ := Fault.fresh_of home _

/-- What raises fresh faults alone lets nothing else pass. -/
theorem rises_ofMetered {act : Metered α} (h : act.Made (Fault.Fresh home)) :
    Rises context named depth home (ofMetered act) fun _ => True :=
  ends_ofMetered ((h.ends (fun _ => Fault.fresh_of home _) context.limits).weaken
    (fun _ hv => hv) fun _ hfresh _ => .fresh hfresh)

theorem rises_ofExcept (result : Except Refusal α) :
    Rises context named depth home (Act.ofExcept result) fun _ => True :=
  .ofExcept (fun _ _ => trivial) fun _ _ => .fresh (Fault.fresh_of home _)

theorem places_refuseAt (hs : span.Inside home.span) (why : Refusal) :
    Places context named depth home (refuseAt span why) promise := by
  have hfresh : (Fault.refusal why).Fresh home := Fault.fresh_of home _
  refine .fault fun _ => ⟨.fresh (hfresh.locate hs), ?_⟩
  rw [Fault.locate, Fault.span?_mark]
  rfl

/-- The fault of a step outside of every function is none of running code. -/
theorem not_ofRunning_noActiveFunction : ¬ (Fault.of .noActiveFunction).OfRunning := by
  rintro (h | h) <;> cases h

theorem places_modifyLocals (change : Locals → Locals) :
    Places context named depth home (modifyLocals change) fun _ => True :=
  ends_modifyLocals fun hrunning => absurd hrunning not_ofRunning_noActiveFunction

theorem places_inBlock (h : Places context named depth home act promise) :
    Places context named depth home (inBlock act) promise :=
  ends_inBlock (fun hrunning => absurd hrunning not_ofRunning_noActiveFunction) h

theorem rises_consult
    {look : (String → Option Function) → Scope → Option Locals → Except Refusal α}
    (h : ∀ globals locals value, look context.function? globals locals = .ok value →
      promise value) :
    Rises context named depth home (consult look) promise :=
  ends_consult h fun _ _ => .fresh (Fault.fresh_of home _)

end Evaluation

end LandPattern
