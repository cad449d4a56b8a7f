import LandPattern.Proofs.Script.Accepting
import LandPattern.Proofs.Script.Extents
import LandPattern.Script.Compile

/-!
# The places of what a draft has read

Between two tokens, a draft holds the places of everything it has read in the order of the source:
those of finished parts, and those of the tokens that opened what is not finished. A token adds its
own place at the end or puts places at the end together. Whatever survives that holds of the places
of a whole script as soon as it holds of the places of its tokens; that they stand in a row is one
such property.
-/

namespace LandPattern.Script

/-- The places of what a call needs before its arguments. -/
def Head.extents : Head → List Extent
  | .call callee => [callee.extent]
  | .method receiver name => [receiver.extent, name.extent]

/-- The places of what waits for an expression. -/
def Wait.extents : Wait → List Extent
  | .unary _ s => [s.extent]
  | .binary _ left => [left.extent]
  | .group s done | .list s done => s.extent :: itemExtents done.reverse
  | .arguments head done keyword =>
    head.extents ++ argumentExtents done.reverse ++ (keyword.map Name.extent).toList
  | .index object => [object.extent]

/-- The places of everything that waits for an expression, the outermost first. -/
def stackExtents : List Wait → List Extent
  | [] => []
  | wait :: outer => stackExtents outer ++ wait.extents

mutual

/-- The places of an open block and of all blocks around it. -/
def OpenBlock.extents (block : OpenBlock) : List Extent :=
  match block with
  | .mk purpose start done => purpose.extents ++ start.extent :: statementExtents done.reverse
termination_by structural block

/-- The places of what a block is the body of. -/
def Purpose.extents (purpose : Purpose) : List Extent :=
  match purpose with
  | .function start name params => start.extent :: name.extent :: params.map Name.extent
  | .branch outer start done condition =>
    outer.extents ++ start.extent :: (branchExtents done.reverse ++ [condition.extent])
  | .otherwise outer start done => outer.extents ++ start.extent :: branchExtents done.reverse
  | .loop outer start var iterable =>
    outer.extents ++ [start.extent, var.extent, iterable.extent]
termination_by structural purpose

end

/-- The places of what an expression is a part of. -/
def Slot.extents : Slot → List Extent
  | .constant name => [name.extent]
  | .bind block start name => block.extents ++ [start.extent, name.extent]
  | .giveBack block start => block.extents ++ [start.extent]
  | .bare block => block.extents
  | .assign block target _ => block.extents ++ [target.extent]
  | .condition block start done => block.extents ++ start.extent :: branchExtents done.reverse
  | .iterable block start var => block.extents ++ [start.extent, var.extent]

/-- The places of the definition being read. -/
def Point.extents : Point → List Extent
  | .item | .constantName => []
  | .functionName start => [start.extent]
  | .functionParams start name => [start.extent, name.extent]
  | .param start name done | .afterParam start name done =>
    start.extent :: name.extent :: done.reverse.map Name.extent
  | .constantEquals name => [name.extent]
  | .block purpose => purpose.extents
  | .statement outer => outer.extents
  | .bindName outer start | .loopName outer start => outer.extents ++ [start.extent]
  | .bindEquals outer start name | .loopIn outer start name =>
    outer.extents ++ [start.extent, name.extent]
  | .afterBranch outer start done _ | .afterElse outer start done =>
    outer.extents ++ start.extent :: branchExtents done.reverse
  | .operand slot stack => slot.extents ++ stackExtents stack
  | .argumentName slot stack name => slot.extents ++ stackExtents stack ++ [name.extent]
  | .operator slot stack e | .fieldName slot stack e =>
    slot.extents ++ stackExtents stack ++ [e.extent]
  | .afterField slot stack object name =>
    slot.extents ++ stackExtents stack ++ [object.extent, name.extent]

/-- The places of finished definitions, which are kept in reverse. -/
def doneExtents (items : List Item) : List Extent := items.reverse.flatMap Item.extents

/-- The places of everything that was read. -/
def Draft.extents (d : Draft) : List Extent := doneExtents d.items ++ d.point.extents

/-- Behind a branch, the reader knows where the last block ends. -/
def Point.Ended : Point → Prop
  | .afterBranch _ _ done last =>
    ∃ condition body rest, done = .mk condition body :: rest ∧ last = body.span
  | _ => True

@[simp] theorem OpenBlock.extents_push (block : OpenBlock) (s : Stmt) :
    (block.push s).extents = block.extents ++ [s.extent] := by
  obtain ⟨purpose, start, done⟩ := block
  simp [OpenBlock.push, OpenBlock.extents, statementExtents]

@[simp] theorem doneExtents_cons (item : Item) (items : List Item) :
    doneExtents (item :: items) = doneExtents items ++ item.extents := by
  simp [doneExtents]

/-- A property of places that follow one another. It stays when some of them are dropped, when a
place gives way to its parts, when neighbours are put together into one that covers them and has
some of them as its parts, and when a place around one place takes over the parts of that. -/
structure Gathers (R : List Extent → Prop) : Prop where
  /-- Some of the places. -/
  sublist {xs ys : List Extent} (h : R ys) (hs : xs.Sublist ys) : R xs
  /-- The parts of a place stand where the place does. -/
  parts {before after : List Extent} {x : Extent} (h : R (before ++ x :: after)) :
    R (before ++ (x.parts ++ after))
  /-- Neighbours become one place. -/
  gather {before middle after : List Extent} {first last : Extent} (parts : List Extent)
    (h : R (before ++ first :: (middle ++ last :: after)))
    (hp : parts.Sublist (first :: (middle ++ [last]))) :
    R (before ++ .mk (first.span.cover last.span) parts :: after)
  /-- A place with one part becomes a place with the parts of that part. -/
  unwrap {before after : List Extent} {s : Span} {x : Extent} (h : R (before ++ .mk s [x] :: after)) :
    R (before ++ .mk s x.parts :: after)

namespace Gathers

variable {R : List Extent → Prop} (hR : Gathers R) {before after : List Extent}

include hR

/-- The same property, told of the places in front of others. -/
theorem inFront (others : List Extent) : Gathers fun xs => R (xs ++ others) where
  sublist h hs := hR.sublist h (hs.append_right others)
  parts h := by
    have hwhole := hR.parts (by simpa using h)
    simpa using hwhole
  gather parts h hp := by
    have hwhole := hR.gather parts (by simpa using h) hp
    simpa using hwhole
  unwrap h := by
    have hwhole := hR.unwrap (by simpa using h)
    simpa using hwhole

theorem dropLast (x : Extent) (h : R (before ++ [x])) : R before :=
  hR.sublist h (List.sublist_append_left _ _)

/-- Completing operators puts places together. -/
theorem settle {stack : List Wait} {e : Expr} (level : Nat)
    (h : R (before ++ stackExtents stack ++ e.extent :: after)) :
    R (before ++ stackExtents (settle level stack e).1 ++
      (settle level stack e).2.extent :: after) := by
  fun_induction Script.settle level stack e with
  | case1 op span outer e hle ih =>
    have hrow : R (before ++ stackExtents outer ++ span.extent :: ([] ++ e.extent :: after)) := by
      simpa [stackExtents, Wait.extents] using h
    have hjoined := hR.gather [e.extent] hrow (by simp)
    simp only [Span.span_extent, Expr.span_extent] at hjoined
    exact ih hjoined
  | case2 op span outer e hlt => exact h
  | case3 op left outer e hle ih =>
    have hrow : R (before ++ stackExtents outer ++ left.extent :: ([] ++ e.extent :: after)) := by
      simpa [stackExtents, Wait.extents] using h
    have hjoined := hR.gather [left.extent, e.extent] hrow (by simp)
    simp only [Expr.span_extent] at hjoined
    exact ih hjoined
  | case4 op left outer e hlt => exact h
  | case5 stack e hunary hbinary => exact h

/-- The place of a call. -/
theorem apply {head : Head} {args : List Argument} {close : Span}
    (h : R (before ++ (head.extents ++ argumentExtents args ++ [close.extent]))) :
    R (before ++ [(head.apply args close).extent]) := by
  cases head with
  | call callee =>
    have hjoined := hR.gather (callee.extent :: argumentExtents args) h (by simp)
    simpa [Head.apply, Expr.extent] using hjoined
  | method receiver name =>
    have hrow : R (before ++ receiver.extent ::
        (name.extent :: argumentExtents args ++ [close.extent])) := by
      simpa [Head.extents] using h
    have hjoined := hR.gather (receiver.extent :: name.extent :: argumentExtents args) hrow
      (by simp)
    simpa [Head.apply, Expr.extent] using hjoined

end Gathers

/-- What a draft has read has the property, and the draft knows where its last block ends. -/
structure Draft.Laid (R : List Extent → Prop) (d : Draft) : Prop where
  /-- The places of everything that was read have the property. -/
  row : R d.extents
  /-- Behind a branch, the end of the last block is known. -/
  ended : d.point.Ended

section Steps

variable {R : List Extent → Prop} {items : List Item} {slot : Slot} {stack : List Wait}
variable {t : Placed} {next : Draft} {e : Expr}

/-- A finished expression, with what waits for it. -/
theorem laid_operator {e : Expr}
    (h : R (doneExtents items ++ (slot.extents ++ stackExtents stack) ++ [e.extent])) :
    Draft.Laid R ⟨items, .operator slot stack e⟩ where
  row := by simpa [Draft.extents, Point.extents] using h
  ended := trivial

/-- What waits for an expression that is still to come. -/
theorem laid_operand
    (h : R (doneExtents items ++ (slot.extents ++ stackExtents stack))) :
    Draft.Laid R ⟨items, .operand slot stack⟩ where
  row := by simpa [Draft.extents, Point.extents] using h
  ended := trivial

theorem laid_statement {block : OpenBlock} (h : R (doneExtents items ++ block.extents)) :
    Draft.Laid R ⟨items, .statement block⟩ where
  row := by simpa [Draft.extents, Point.extents] using h
  ended := trivial

variable (hR : Gathers R)

include hR

theorem EmptyMove.laid (hm : EmptyMove items slot stack t next)
    (h : R (doneExtents items ++ (slot.extents ++ stackExtents stack) ++ [t.span.extent])) :
    next.Laid R := by
  cases hm with
  | @tuple slot start done outer close | @list slot start done outer close =>
    have hrow : R (doneExtents items ++ (slot.extents ++ stackExtents outer) ++
        start.extent :: (itemExtents done.reverse ++ [close.extent])) := by
      simpa [stackExtents, Wait.extents] using h
    have hjoined := hR.gather (itemExtents done.reverse) hrow (by simp)
    exact laid_operator (by simpa [Expr.extent] using hjoined)
  | call => exact laid_operator (hR.apply (by simpa [stackExtents, Wait.extents] using h))
  | @giveNothing block start close =>
    have hrow : R (doneExtents items ++ block.extents ++
        start.extent :: ([] ++ [close.extent])) := by
      simpa [stackExtents, Slot.extents] using h
    have hjoined := hR.gather [] hrow (by simp)
    exact laid_statement (by simpa [Stmt.extent] using hjoined)

theorem OperandMove.laid (hm : OperandMove items slot stack t next)
    (h : R (doneExtents items ++ (slot.extents ++ stackExtents stack) ++ [t.span.extent])) :
    next.Laid R := by
  cases hm with
  | not _ | neg => exact laid_operand (by simpa [stackExtents, Wait.extents] using h)
  | group | list =>
    exact laid_operand (by simpa [stackExtents, Wait.extents, itemExtents] using h)
  | argumentName => exact ⟨by simpa [Draft.extents, Point.extents] using h, trivial⟩
  | @literal stack t literal hliteral =>
    have hextent : literal.extent = t.span.extent := by
      unfold Token.literal? at hliteral
      split at hliteral <;> first | (cases hliteral; rfl) | cases hliteral
    exact laid_operator (by rw [hextent]; exact h)
  | empty hm => exact hm.laid hR h

theorem BracketMove.laid (hm : BracketMove items slot e stack t next)
    (h : R (doneExtents items ++ (slot.extents ++ stackExtents stack) ++
      [e.extent, t.span.extent])) : next.Laid R := by
  have hargument : ∀ keyword : Option Name,
      argumentExtents [stepBracket.argument e keyword] =
        (keyword.map Name.extent).toList ++ [e.extent] := by
    intro keyword
    cases keyword <;> rfl
  have hitem : R (doneExtents items ++ (slot.extents ++ stackExtents stack) ++ [e.extent]) :=
    hR.dropLast t.span.extent (by simpa using h)
  cases hm with
  | nextInGroup | nextInList =>
    exact laid_operand (by simpa [stackExtents, Wait.extents, itemExtents] using hitem)
  | nextArgument => exact laid_operand (by simpa [stackExtents, Wait.extents, hargument] using hitem)
  | @group start outer close =>
    have hrow : R (doneExtents items ++ (slot.extents ++ stackExtents outer) ++
        start.extent :: ([e.extent] ++ [close.extent])) := by
      simpa [stackExtents, Wait.extents, itemExtents] using h
    have hgroup := hR.gather [e.extent] hrow (by simp)
    refine laid_operator ?_
    rw [Expr.extent_withSpan]
    exact hR.unwrap hgroup
  | @tuple start done outer close _ | @list start done outer close =>
    have hrow : R (doneExtents items ++ (slot.extents ++ stackExtents outer) ++
        start.extent :: (itemExtents (e :: done).reverse ++ [close.extent])) := by
      simpa [stackExtents, Wait.extents, itemExtents] using h
    have hjoined := hR.gather (itemExtents (e :: done).reverse) hrow (by simp)
    exact laid_operator (by simpa [Expr.extent] using hjoined)
  | call =>
    refine laid_operator (hR.apply ?_)
    simpa [stackExtents, Wait.extents, hargument] using h
  | @index object outer close =>
    have hrow : R (doneExtents items ++ (slot.extents ++ stackExtents outer) ++
        object.extent :: ([e.extent] ++ [close.extent])) := by
      simpa [stackExtents, Wait.extents] using h
    have hjoined := hR.gather [object.extent, e.extent] hrow (by simp)
    exact laid_operator (by simpa [Expr.extent] using hjoined)

/-- The end of a statement puts the places of its parts together. -/
theorem laid_finish? {close : Span}
    (h : R (doneExtents items ++ slot.extents ++ [e.extent, close.extent]))
    (hs : slot.finish? items e close = some next) : next.Laid R := by
  cases slot with
  | constant name =>
    cases hs
    refine ⟨hR.dropLast close.extent ?_, trivial⟩
    simpa [Draft.extents, Point.extents, Slot.extents, Item.extents] using h
  | bind block start name =>
    cases hs
    have hrow : R (doneExtents items ++ block.extents ++
        start.extent :: ([name.extent, e.extent] ++ [close.extent])) := by
      simpa [Slot.extents] using h
    have hjoined := hR.gather [name.extent, e.extent] hrow (by simp)
    exact laid_statement (by simpa [Stmt.extent] using hjoined)
  | giveBack block start =>
    cases hs
    have hrow : R (doneExtents items ++ block.extents ++
        start.extent :: ([e.extent] ++ [close.extent])) := by
      simpa [Slot.extents] using h
    have hjoined := hR.gather [e.extent] hrow (by simp)
    exact laid_statement (by simpa [Stmt.extent] using hjoined)
  | bare block =>
    cases hs
    have hrow : R (doneExtents items ++ block.extents ++
        e.extent :: ([] ++ [close.extent])) := by
      simpa [Slot.extents] using h
    have hjoined := hR.gather [e.extent] hrow (by simp)
    exact laid_statement (by simpa [Stmt.extent] using hjoined)
  | assign block target op =>
    cases hs
    have hrow : R (doneExtents items ++ block.extents ++
        target.extent :: ([e.extent] ++ [close.extent])) := by
      simpa [Slot.extents] using h
    have hjoined := hR.gather [target.extent, e.extent] hrow (by simp)
    exact laid_statement (by simpa [Stmt.extent] using hjoined)
  | condition block start done => cases hs
  | iterable block start var => cases hs

theorem EndMove.laid (hm : EndMove items e slot t next)
    (h : R (doneExtents items ++ slot.extents ++ [e.extent, t.span.extent])) : next.Laid R := by
  have hbefore : R (doneExtents items ++ slot.extents ++ [e.extent]) :=
    hR.dropLast t.span.extent (by simpa using h)
  cases hm with
  | finish hfinish => exact laid_finish? hR h hfinish
  | branch | loop =>
    refine laid_statement ?_
    simpa [Slot.extents, OpenBlock.extents, Purpose.extents, statementExtents] using h
  | assign _ => exact laid_operand (by simpa [Slot.extents, stackExtents] using hbefore)

theorem OperatorMove.laid (hm : OperatorMove items slot stack e t next)
    (h : R (doneExtents items ++ (slot.extents ++ stackExtents stack) ++
      [e.extent, t.span.extent])) : next.Laid R := by
  have hoperand : R (doneExtents items ++ (slot.extents ++ stackExtents stack) ++
      [e.extent]) := hR.dropLast t.span.extent (by simpa using h)
  -- what the token ends is completed in front of it
  have hsettled : R (doneExtents items ++ slot.extents ++ stackExtents (settle 0 stack e).1 ++
      (settle 0 stack e).2.extent :: [t.span.extent]) := hR.settle 0 (by simpa using h)
  cases hm with
  | dot => exact ⟨by simpa [Draft.extents, Point.extents] using hoperand, trivial⟩
  | call =>
    refine laid_operand ?_
    simpa [stackExtents, Wait.extents, Head.extents, argumentExtents] using hoperand
  | index => exact laid_operand (by simpa [stackExtents, Wait.extents] using hoperand)
  | @binary t op _ _ =>
    have hleft : R (doneExtents items ++ slot.extents ++
        stackExtents (settle op.leftLevel stack e).1 ++ [(settle op.leftLevel stack e).2.extent]) :=
      hR.settle op.leftLevel (by simpa using hoperand)
    exact laid_operand (by simpa [stackExtents, Wait.extents] using hleft)
  | ends hempty hm =>
    rw [hempty] at hsettled
    exact hm.laid hR (by simpa [stackExtents] using hsettled)
  | bracket hm => exact hm.laid hR (by simpa using hsettled)

/-- The end of a block puts the places of its statements together, and those of what it ends. -/
theorem laid_finish {block : OpenBlock} {close : Span}
    (h : R (doneExtents items ++ block.extents ++ [close.extent])) :
    (block.finish items close).Laid R := by
  obtain ⟨purpose, start, done⟩ := block
  have hrow : R (doneExtents items ++ purpose.extents ++
      start.extent :: (statementExtents done.reverse ++ [close.extent])) := by
    simpa [OpenBlock.extents] using h
  have hjoined := hR.gather (statementExtents done.reverse) hrow (by simp)
  have hbody : R (doneExtents items ++ purpose.extents ++
      [(Block.mk (start.cover close) done.reverse).extent]) := by
    simpa [Block.extent] using hjoined
  cases purpose with
  | function first name params =>
    have hparts : R (doneExtents items ++ first.extent ::
        (name.extent :: params.map Name.extent ++
          [(Block.mk (start.cover close) done.reverse).extent])) := by
      simpa [Purpose.extents] using hbody
    have hfunction := hR.gather (name.extent :: params.map Name.extent ++
      [(Block.mk (start.cover close) done.reverse).extent]) hparts (by simp)
    exact ⟨by simpa [OpenBlock.finish, Draft.extents, Point.extents, Item.extents, Function.extent,
      Block.span] using hfunction, trivial⟩
  | branch outer first branches condition =>
    refine ⟨?_, condition, _, branches, rfl, rfl⟩
    simpa [OpenBlock.finish, Draft.extents, Point.extents, Purpose.extents, branchExtents] using hbody
  | otherwise outer first branches =>
    have hparts : R (doneExtents items ++ outer.extents ++ first.extent ::
        (branchExtents branches.reverse ++
          [(Block.mk (start.cover close) done.reverse).extent])) := by
      simpa [Purpose.extents] using hbody
    have hchoice := hR.gather (branchExtents branches.reverse ++
      [(Block.mk (start.cover close) done.reverse).extent]) hparts (by simp)
    refine laid_statement ?_
    simpa [Stmt.extent, otherwiseExtents, Block.span] using hchoice
  | loop outer first var iterable =>
    have hparts : R (doneExtents items ++ outer.extents ++ first.extent ::
        ([var.extent, iterable.extent] ++
          [(Block.mk (start.cover close) done.reverse).extent])) := by
      simpa [Purpose.extents] using hbody
    have hloop := hR.gather ([var.extent, iterable.extent] ++
      [(Block.mk (start.cover close) done.reverse).extent]) hparts (by simp)
    refine laid_statement ?_
    simpa [Stmt.extent, Block.span] using hloop

theorem StatementMove.laid {block : OpenBlock} (hm : StatementMove items block t next)
    (h : R (doneExtents items ++ block.extents ++ [t.span.extent])) : next.Laid R := by
  cases hm with
  | finish => exact laid_finish hR h
  | bind | loop => exact ⟨by simpa [Draft.extents, Point.extents] using h, trivial⟩
  | giveBack => exact laid_operand (by simpa [Slot.extents, stackExtents] using h)
  | choose => exact laid_operand (by simpa [Slot.extents, stackExtents, branchExtents] using h)
  | bare hm => exact hm.laid hR (by simpa [Slot.extents, stackExtents] using h)

/-- Behind a branch that is the last one, the choice is finished. -/
theorem Gathers.choose (before after : List Extent) {start : Span} {done : List Branch}
    {condition : Expr} {body : Block}
    (h : R (before ++ start.extent :: branchExtents (.mk condition body :: done).reverse ++ after)) :
    R (before ++ (Stmt.choose (start.cover body.span)
      (.mk condition body :: done).reverse none).extent :: after) := by
  have hrow : R (before ++ start.extent ::
      (branchExtents done.reverse ++ [condition.extent] ++ body.extent :: after)) := by
    simpa [branchExtents] using h
  have hjoined := hR.gather (branchExtents done.reverse ++ [condition.extent] ++
    [body.extent]) hrow (by simp)
  simpa [Stmt.extent, branchExtents, otherwiseExtents] using hjoined

/-- What holds of everything that was read and of the place of a token behind it holds of everything
that was read with the token. -/
theorem Move.laid {point : Point} (hm : Move items point t next) (hended : point.Ended)
    (h : R (doneExtents items ++ point.extents ++ [t.span.extent])) : next.Laid R := by
  have hbefore : R (doneExtents items ++ point.extents) := hR.dropLast t.span.extent h
  cases hm with
  | function | functionName | param | constantName | bindName | loopName | fieldName =>
    exact ⟨by simpa [Draft.extents, Point.extents] using h, trivial⟩
  | constant | openParams | nextParam | otherwise =>
    exact ⟨by simpa [Draft.extents, Point.extents] using hbefore, trivial⟩
  | noParam | lastParam =>
    exact ⟨by simpa [Draft.extents, Point.extents, Purpose.extents] using hbefore, trivial⟩
  | constantEquals | bindEquals | loopIn | elseIf =>
    exact laid_operand (by simpa [Point.extents, Slot.extents, stackExtents] using hbefore)
  | block | elseBlock =>
    refine laid_statement ?_
    simpa [Point.extents, OpenBlock.extents, Purpose.extents, statementExtents] using h
  | statement hm => exact hm.laid hR h
  | @chosen block start done last t next hm =>
    obtain ⟨condition, body, rest, rfl, rfl⟩ := hended
    have hchoice := hR.choose (doneExtents items ++ block.extents) [t.span.extent]
      (by simpa [Point.extents] using h)
    exact hm.laid hR (by simpa using hchoice)
  | operand hm => exact hm.laid hR h
  | keyword => exact laid_operand (by simpa [Point.extents, stackExtents, Wait.extents] using hbefore)
  | argument hm => exact hm.laid hR (by simpa [Point.extents, Expr.extent] using h)
  | operator hm => exact hm.laid hR (by simpa [Point.extents] using h)
  | method =>
    refine laid_operand ?_
    simpa [Point.extents, stackExtents, Wait.extents, Head.extents, argumentExtents] using hbefore
  | @field slot stack object name t next _ hm =>
    have hparts : R (doneExtents items ++ (slot.extents ++ stackExtents stack) ++
        object.extent :: ([] ++ name.span.extent :: [t.span.extent])) := by
      simpa [Point.extents] using h
    have hfield := hR.gather [object.extent, name.span.extent] hparts (by simp)
    exact hm.laid hR (by simpa [Expr.extent] using hfield)

end Steps

theorem Gathers.step {R : List Extent → Prop} (hR : Gathers R) {d next : Draft} {t : Placed}
    (hended : d.point.Ended) (hrow : R (d.extents ++ [t.span.extent])) (hs : d.step t = .ok next) :
    next.Laid R :=
  (Draft.move_of_step hs).laid hR hended hrow

/-- What holds of everything that was read and of the places of the tokens behind it holds of the
script that they make up. -/
theorem Gathers.read {R : List Extent → Prop} (hR : Gathers R) {d : Draft} {rest : List Placed}
    {p : Program} (hended : d.point.Ended)
    (h : R (d.extents ++ rest.map fun t => t.span.extent)) (hr : d.read rest = .ok p) :
    R p.extents := by
  induction rest generalizing d with
  | nil =>
    obtain ⟨items, point⟩ := d
    simp only [Draft.read] at hr
    split at hr
    · rename_i q hfinish
      cases hr
      cases point with
      | item =>
        cases hfinish
        simpa [Draft.extents, Point.extents, doneExtents, Program.extents] using h
      | _ => cases hfinish
    · cases hr
  | cons t rest ih =>
    simp only [Draft.read] at hr
    split at hr
    · rename_i next hstep
      -- what stands behind the token is carried along
      have hlaid := (hR.inFront (rest.map fun t => t.span.extent)).step hended
        (by simpa using h) hstep
      exact ih hlaid.ended hlaid.row hr
    · cases hr

/-- What holds of the places of tokens holds of the places of the script that they write. -/
theorem Gathers.ofTokens {R : List Extent → Prop} (hR : Gathers R) {tokens : List Placed}
    {p : Program} (h : R ((significant tokens).map fun t => t.span.extent))
    (hp : Program.ofTokens tokens = .ok p) : R p.extents :=
  hR.read (d := Draft.start) trivial h (Program.ofTokens_eq_ok_iff.1 hp)

/-- A row stays one when places in it are put together. -/
theorem Row.gathers (lo hi : Nat) : Gathers (Row lo hi) where
  sublist := Row.sublist
  parts := by
    intro before after x h
    obtain ⟨between, hbefore, hrest⟩ := Row.append_iff.1 h
    cases hrest with
    | cons hlo hs hp hr => exact hbefore.append ((hp.widen hlo (Nat.le_refl _)).append hr)
  gather := by
    intro before middle after first last parts h hp
    obtain ⟨between, hbefore, hafter⟩ := Row.append_iff.1
      (show Row lo hi ((before ++ first :: (middle ++ [last])) ++ after) by simpa using h)
    have hjoined := (hbefore.gather parts fun htight => htight.sublist hp).append hafter
    simpa using hjoined
  unwrap := by
    intro before after s x h
    obtain ⟨between, hbefore, hrest⟩ := Row.append_iff.1 h
    cases hrest with
    | cons hlo hs hp hr => exact hbefore.append (.cons hlo hs hp.parts hr)

/-- The definitions of a script stand in a row, and so does everything they are made of. -/
theorem Program.row_of_ofText {depths : Depths} {source : String} {p : Program}
    (h : Program.ofText depths source = .ok p) : Row 0 (byteLength source.toList) p.extents := by
  obtain ⟨tokens, htokens, -, hprogram, -⟩ := Program.stages_of_ofText h
  have hlexed := (tokenize_eq_ok_iff.1 htokens).row
  rw [Nat.zero_add] at hlexed
  exact (Row.gathers _ _).ofTokens (hlexed.sublist (List.Sublist.map _ List.filter_sublist)) hprogram

end LandPattern.Script
