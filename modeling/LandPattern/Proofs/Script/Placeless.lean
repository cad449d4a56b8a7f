import LandPattern.Proofs.Script.Reading

/-!
# Reading without places

What the reader does with a token does not depend on where the token stands. Forgetting all places
of a draft and of the next token, and then reading it, is the same as reading it and forgetting the
places of the draft that is reached, and a token is refused with or without its place.
-/

namespace LandPattern.Script

/-- The token without its place. -/
def Placed.placeless (t : Placed) : Placed := ⟨t.token, .nowhere⟩

/-- What an argument list belongs to, without its places. -/
def Head.placeless : Head → Head
  | .call callee => .call callee.bare
  | .method receiver name => .method receiver.bare name.bare

/-- What waits for an expression, without its places. -/
def Wait.placeless : Wait → Wait
  | .unary op _ => .unary op .nowhere
  | .binary op left => .binary op left.bare
  | .group _ done => .group .nowhere (done.map Expr.bare)
  | .list _ done => .list .nowhere (done.map Expr.bare)
  | .arguments head done keyword =>
    .arguments head.placeless (done.map Argument.bare) (keyword.map Name.bare)
  | .index object => .index object.bare

mutual

/-- The open block without its places. -/
def OpenBlock.placeless (block : OpenBlock) : OpenBlock :=
  match block with
  | .mk purpose _ done => .mk purpose.placeless .nowhere (done.map Stmt.bare)
termination_by structural block

/-- What a block is the body of, without its places. -/
def Purpose.placeless (purpose : Purpose) : Purpose :=
  match purpose with
  | .function _ name params => .function .nowhere name.bare (params.map Name.bare)
  | .branch outer _ done condition =>
    .branch outer.placeless .nowhere (done.map Branch.bare) condition.bare
  | .otherwise outer _ done => .otherwise outer.placeless .nowhere (done.map Branch.bare)
  | .loop outer _ var iterable => .loop outer.placeless .nowhere var.bare iterable.bare
termination_by structural purpose

end

/-- What an expression is a part of, without its places. -/
def Slot.placeless : Slot → Slot
  | .constant name => .constant name.bare
  | .bind block _ name => .bind block.placeless .nowhere name.bare
  | .giveBack block _ => .giveBack block.placeless .nowhere
  | .bare block => .bare block.placeless
  | .assign block target op => .assign block.placeless target.bare op
  | .condition block _ done => .condition block.placeless .nowhere (done.map Branch.bare)
  | .iterable block _ var => .iterable block.placeless .nowhere var.bare

/-- Where the reader stands, without the places of what it has read. -/
def Point.placeless : Point → Point
  | .item => .item
  | .functionName _ => .functionName .nowhere
  | .functionParams _ name => .functionParams .nowhere name.bare
  | .param _ name done => .param .nowhere name.bare (done.map Name.bare)
  | .afterParam _ name done => .afterParam .nowhere name.bare (done.map Name.bare)
  | .constantName => .constantName
  | .constantEquals name => .constantEquals name.bare
  | .block purpose => .block purpose.placeless
  | .statement outer => .statement outer.placeless
  | .bindName outer _ => .bindName outer.placeless .nowhere
  | .bindEquals outer _ name => .bindEquals outer.placeless .nowhere name.bare
  | .loopName outer _ => .loopName outer.placeless .nowhere
  | .loopIn outer _ var => .loopIn outer.placeless .nowhere var.bare
  | .afterBranch outer _ done _ =>
    .afterBranch outer.placeless .nowhere (done.map Branch.bare) .nowhere
  | .afterElse outer _ done => .afterElse outer.placeless .nowhere (done.map Branch.bare)
  | .operand slot stack => .operand slot.placeless (stack.map Wait.placeless)
  | .argumentName slot stack name => .argumentName slot.placeless (stack.map Wait.placeless) name.bare
  | .operator slot stack e => .operator slot.placeless (stack.map Wait.placeless) e.bare
  | .fieldName slot stack object => .fieldName slot.placeless (stack.map Wait.placeless) object.bare
  | .afterField slot stack object name =>
    .afterField slot.placeless (stack.map Wait.placeless) object.bare name.bare

/-- The draft without its places. -/
def Draft.placeless (d : Draft) : Draft := ⟨d.items.map Item.bare, d.point.placeless⟩

/-- A step without its places. -/
def Step.placeless (step : Step) : Step := step.map Draft.placeless

@[simp] theorem Step.placeless_ok (d : Draft) : Step.placeless (.ok d) = .ok d.placeless := rfl

@[simp] theorem Step.placeless_error (expected : Expectation) :
    Step.placeless (.error expected) = .error expected := rfl

@[simp] theorem Placed.token_placeless (t : Placed) : t.placeless.token = t.token := rfl

@[simp] theorem Placed.span_placeless (t : Placed) : t.placeless.span = .nowhere := rfl

@[simp] theorem Span.cover_nowhere : Span.nowhere.cover .nowhere = .nowhere := rfl

@[simp] theorem Expr.span_bare (e : Expr) : e.bare.span = .nowhere := by
  cases e <;> rw [Expr.bare] <;> rfl

@[simp] theorem Expr.withSpan_bare (e : Expr) : e.bare.withSpan .nowhere = e.bare := by
  cases e <;> rw [Expr.bare] <;> rfl

@[simp] theorem OpenBlock.placeless_push (block : OpenBlock) (s : Stmt) :
    (block.push s).placeless = block.placeless.push s.bare := by
  obtain ⟨purpose, start, done⟩ := block
  simp only [OpenBlock.push, OpenBlock.placeless, List.map_cons]

@[simp] theorem Head.placeless_apply (head : Head) (args : List Argument) (close : Span) :
    (head.apply args close).bare = head.placeless.apply (args.map Argument.bare) .nowhere := by
  cases head <;> simp [Head.apply, Head.placeless, Expr.bare, bareArguments_eq_map]

/-- Which operators are complete does not depend on where they stand. -/
theorem settle_placeless (level : Nat) (stack : List Wait) (e : Expr) :
    settle level (stack.map Wait.placeless) e.bare =
      ((settle level stack e).1.map Wait.placeless, (settle level stack e).2.bare) := by
  induction stack generalizing e with
  | nil => rfl
  | cons w outer ih =>
    cases w with
    | unary op span =>
      by_cases h : level ≤ op.level
      · have hnext := ih (.unary (span.cover e.span) op e)
        simpa [settle, Wait.placeless, h, Expr.bare] using hnext
      · simp [settle, Wait.placeless, h]
    | binary op left =>
      by_cases h : level ≤ op.level
      · have hnext := ih (.binary (left.span.cover e.span) op left e)
        simpa [settle, Wait.placeless, h, Expr.bare] using hnext
      · simp [settle, Wait.placeless, h]
    | _ => rfl

theorem allowsNot_placeless (stack : List Wait) :
    allowsNot (stack.map Wait.placeless) = allowsNot stack := by
  cases stack with
  | nil => rfl
  | cons w outer => cases w <;> rfl

theorem afterExpression_placeless (slot : Slot) (stack : List Wait) :
    afterExpression slot.placeless (stack.map Wait.placeless) = afterExpression slot stack := by
  induction stack with
  | nil => cases slot <;> rfl
  | cons w outer ih =>
    cases w with
    | unary op span => exact ih
    | binary op left => exact ih
    | _ => rfl

theorem Point.expected_placeless (atEnd : Bool) (point : Point) :
    point.placeless.expected atEnd = point.expected atEnd := by
  cases point with
  | argumentName slot stack name => exact afterExpression_placeless slot stack
  | operator slot stack e => exact afterExpression_placeless slot stack
  | afterField slot stack object name => exact afterExpression_placeless slot stack
  | _ => rfl

variable (items : List Item) (slot : Slot) (stack : List Wait) (t : Placed)

theorem closeEmpty_placeless :
    closeEmpty (items.map Item.bare) slot.placeless (stack.map Wait.placeless) t.placeless =
      Step.placeless (closeEmpty items slot stack t) := by
  obtain ⟨token, span⟩ := t
  cases stack with
  | nil =>
    cases slot <;> cases token <;> first | rfl | simp [closeEmpty, Slot.placeless,
      Draft.placeless, Point.placeless, Stmt.bare, Placed.placeless]
  | cons w outer =>
    cases w with
    | group start done =>
      cases token <;> simp [closeEmpty, Wait.placeless, Placed.placeless, Draft.placeless,
        Point.placeless, Expr.bare, bareItems_eq_map]
    | list start done =>
      cases token <;> simp [closeEmpty, Wait.placeless, Placed.placeless, Draft.placeless,
        Point.placeless, Expr.bare, bareItems_eq_map]
    | arguments head done keyword =>
      cases keyword <;> cases token <;>
        simp [closeEmpty, Wait.placeless, Placed.placeless, Draft.placeless, Point.placeless]
    | _ => cases token <;> rfl

theorem stepOperand_placeless :
    stepOperand (items.map Item.bare) slot.placeless (stack.map Wait.placeless) t.placeless =
      Step.placeless (stepOperand items slot stack t) := by
  have hempty := closeEmpty_placeless items slot stack t
  obtain ⟨token, span⟩ := t
  cases token with
  | wordNot =>
    simp only [stepOperand, Placed.placeless, allowsNot_placeless]
    split <;> rfl
  | name text =>
    cases stack with
    | nil => rfl
    | cons w outer =>
      cases w with
      | arguments head done keyword => cases keyword <;> rfl
      | _ => rfl
  | minus | leftParen | leftBracket => rfl
  | int | float | text | wordTrue | wordFalse | wordNone => rfl
  | _ => exact hempty

theorem stepBinary_placeless (e : Expr) (op : BinaryOp) :
    stepBinary (items.map Item.bare) slot.placeless (stack.map Wait.placeless) e.bare op =
      Step.placeless (stepBinary items slot stack e op) := by
  simp only [stepBinary, settle_placeless]
  generalize settle _ stack e = found
  obtain ⟨outer, left⟩ := found
  have hrefused := afterExpression_placeless slot outer
  rcases outer with - | ⟨w, rest⟩
  · simp only [List.map_nil, Bool.and_false, Bool.false_eq_true, if_false]
    rfl
  · cases w with
    | binary other before =>
      simp only [List.map_cons, Wait.placeless] at hrefused ⊢
      split
      · exact congrArg Except.error hrefused
      · rfl
    | _ =>
      simp only [List.map_cons, Wait.placeless, Bool.and_false, Bool.false_eq_true, if_false]
      rfl

theorem stepBracket_placeless (e : Expr) :
    stepBracket (items.map Item.bare) slot.placeless (stack.map Wait.placeless) e.bare t.placeless =
      Step.placeless (stepBracket items slot stack e t) := by
  have hrefused := afterExpression_placeless slot stack
  have hargument : ∀ keyword : Option Name, stepBracket.argument e.bare (keyword.map Name.bare) =
      (stepBracket.argument e keyword).bare := by
    intro keyword
    cases keyword <;> rfl
  obtain ⟨token, span⟩ := t
  cases stack with
  | nil => cases token <;> exact congrArg Except.error hrefused
  | cons w outer =>
    cases w with
    | group start done =>
      cases token with
      | rightParen =>
        cases done <;> simp [stepBracket, Wait.placeless, Placed.placeless, Draft.placeless,
          Point.placeless, Expr.bare, bareItems_eq_map]
      | comma => rfl
      | _ => exact congrArg Except.error hrefused
    | list start done =>
      cases token with
      | rightBracket => simp [stepBracket, Wait.placeless, Placed.placeless, Draft.placeless,
          Point.placeless, Expr.bare, bareItems_eq_map]
      | comma => rfl
      | _ => exact congrArg Except.error hrefused
    | arguments head done keyword =>
      cases token with
      | rightParen => simp [stepBracket, Wait.placeless, Placed.placeless, Draft.placeless,
          Point.placeless, hargument]
      | comma => simp [stepBracket, Wait.placeless, Placed.placeless, Draft.placeless,
          Point.placeless, hargument]
      | _ => exact congrArg Except.error hrefused
    | index object =>
      cases token with
      | rightBracket => simp [stepBracket, Wait.placeless, Placed.placeless, Draft.placeless,
          Point.placeless, Expr.bare]
      | _ => exact congrArg Except.error hrefused
    | _ => cases token <;> exact congrArg Except.error hrefused

theorem Slot.finish?_placeless (e : Expr) (close : Span) :
    slot.placeless.finish? (items.map Item.bare) e.bare .nowhere =
      (slot.finish? items e close).map Draft.placeless := by
  cases slot <;> simp [Slot.placeless, Slot.finish?, Draft.placeless, Point.placeless, Item.bare,
    Stmt.bare]

theorem stepEnd_placeless (e : Expr) :
    stepEnd (items.map Item.bare) slot.placeless e.bare t.placeless =
      Step.placeless (stepEnd items slot e t) := by
  have hrefused := afterExpression_placeless slot []
  obtain ⟨token, span⟩ := t
  cases token with
  | semicolon =>
    simp only [stepEnd, Placed.placeless, Slot.finish?_placeless items slot e span]
    cases slot.finish? items e span with
    | none => exact congrArg Except.error hrefused
    | some draft => rfl
  | leftBrace =>
    cases slot with
    | condition block start done =>
      simp [stepEnd, Placed.placeless, Slot.placeless, Draft.placeless, Point.placeless,
        OpenBlock.placeless, Purpose.placeless]
    | iterable block start var =>
      simp [stepEnd, Placed.placeless, Slot.placeless, Draft.placeless, Point.placeless,
        OpenBlock.placeless, Purpose.placeless]
    | _ => rfl
  | equals | plusEquals | minusEquals | starEquals | slashEquals => cases slot <;> rfl
  | _ => cases slot <;> rfl

/-- A token that writes a binary operator is read as this operator. -/
theorem stepOperator_of_binaryOp? (e : Expr) {op : BinaryOp} (h : t.token.binaryOp? = some op) :
    stepOperator items slot stack e t = stepBinary items slot stack e op := by
  obtain ⟨token, span⟩ := t
  cases token <;> cases h <;> rfl

/-- The reader behind an operand, at a token that continues no expression: the waiting operators
take their operands, and the token ends the expression or belongs to the bracket around it. -/
def stepSettled (e : Expr) : Step :=
  match settle 0 stack e with
  | ([], whole) => stepEnd items slot whole t
  | (outer, whole) => stepBracket items slot outer whole t

theorem stepSettled_placeless (e : Expr) :
    stepSettled (items.map Item.bare) slot.placeless (stack.map Wait.placeless) t.placeless e.bare =
      Step.placeless (stepSettled items slot stack t e) := by
  unfold stepSettled
  rw [settle_placeless]
  rcases settle 0 stack e with ⟨- | ⟨w, outer⟩, whole⟩
  · exact stepEnd_placeless items slot t whole
  · exact stepBracket_placeless items slot (w :: outer) t whole

theorem stepOperator_placeless (e : Expr) :
    stepOperator (items.map Item.bare) slot.placeless (stack.map Wait.placeless) e.bare
        t.placeless =
      Step.placeless (stepOperator items slot stack e t) := by
  have hsettled := stepSettled_placeless items slot stack t e
  cases hop : t.token.binaryOp? with
  | some op =>
    rw [stepOperator_of_binaryOp? _ _ _ _ _ hop, stepOperator_of_binaryOp? _ _ _ t.placeless _ hop]
    exact stepBinary_placeless items slot stack e op
  | none =>
    obtain ⟨token, span⟩ := t
    cases token with
    | dot | leftParen | leftBracket => rfl
    | wordAnd | wordOr | plus | minus | star | slash | percent | equalsEquals | bangEquals | less
      | lessEquals | greater | greaterEquals => cases hop
    | _ => exact hsettled

theorem OpenBlock.finish_placeless (block : OpenBlock) (close : Span) :
    block.placeless.finish (items.map Item.bare) .nowhere =
      (block.finish items close).placeless := by
  obtain ⟨purpose, start, done⟩ := block
  cases purpose <;> simp [OpenBlock.placeless, Purpose.placeless, OpenBlock.finish,
    Draft.placeless, Point.placeless, Item.bare, Function.bare, Block.bare, Branch.bare, Stmt.bare,
    bareStatements_eq_map, bareBranches_eq_map, bareOtherwise]

theorem stepStatement_placeless (block : OpenBlock) :
    stepStatement (items.map Item.bare) block.placeless t.placeless =
      Step.placeless (stepStatement items block t) := by
  have hfinish := OpenBlock.finish_placeless items block t.span
  have hoperand := stepOperand_placeless items (.bare block) [] t
  obtain ⟨token, span⟩ := t
  cases token with
  | rightBrace => exact congrArg Except.ok hfinish
  | wordLet | wordReturn | wordIf | wordFor => rfl
  | _ => exact hoperand

/-- A token leads from a draft without its places to the next one without its places, or is refused
for the same reason. -/
theorem Draft.step_placeless (d : Draft) (t : Placed) :
    d.placeless.step t.placeless = Step.placeless (d.step t) := by
  obtain ⟨items, point⟩ := d
  cases point with
  | statement block => exact stepStatement_placeless items t block
  | operand slot stack => exact stepOperand_placeless items slot stack t
  | operator slot stack e => exact stepOperator_placeless items slot stack t e
  | afterBranch block start done last =>
    have hstatement := stepStatement_placeless items t
      (block.push (.choose (start.cover last) done.reverse none))
    obtain ⟨token, span⟩ := t
    simp only [OpenBlock.placeless_push, Stmt.bare, bareBranches_eq_map, bareOtherwise,
      List.map_reverse] at hstatement
    cases token with
    | wordElse => rfl
    | _ => exact hstatement
  | argumentName slot stack name =>
    have hoperator := stepOperator_placeless items slot stack t (.name name.span name.text)
    rcases stack with - | ⟨w, outer⟩
    · exact hoperator
    · cases w with
      | arguments head done keyword =>
        obtain ⟨token, span⟩ := t
        cases keyword with
        | some found => exact hoperator
        | none =>
          cases token with
          | equals => rfl
          | _ => exact hoperator
      | _ => exact hoperator
  | afterField slot stack object name =>
    have hoperator := stepOperator_placeless items slot stack t
      (.field (object.span.cover name.span) object name)
    have hfield : (Expr.field (object.span.cover name.span) object name).bare =
        .field (object.bare.span.cover name.bare.span) object.bare name.bare := by
      simp [Expr.bare, Name.bare]
    rw [hfield] at hoperator
    obtain ⟨token, span⟩ := t
    cases token with
    | leftParen => rfl
    | _ => exact hoperator
  | _ =>
    obtain ⟨token, span⟩ := t
    cases token <;> first | rfl | simp [Draft.step, Draft.placeless, Point.placeless,
      Placed.placeless, Purpose.placeless, Name.bare]

theorem Draft.finish_placeless (d : Draft) :
    d.placeless.finish = d.finish.map Program.bare := by
  obtain ⟨items, point⟩ := d
  have hrefused := Point.expected_placeless true point
  cases point with
  | item => simp [Draft.finish, Draft.placeless, Point.placeless, Except.map, Program.bare]
  | _ => exact congrArg Except.error hrefused

/-- What the reader ends with is, without its places, what it ends with when it never saw any. -/
theorem Draft.read_placeless (d : Draft) (tokens : List Placed) :
    d.placeless.read (tokens.map Placed.placeless) =
      ((d.read tokens).map Program.bare).mapError fun failed =>
        (failed.1, failed.2.map Placed.placeless) := by
  induction tokens generalizing d with
  | nil =>
    have hfinish := d.finish_placeless
    simp only [List.map_nil, Draft.read, hfinish]
    cases d.finish <;> rfl
  | cons t rest ih =>
    have hstep := d.step_placeless t
    simp only [List.map_cons, Draft.read, hstep]
    cases d.step t with
    | ok next => exact ih next
    | error expected => rfl

/-- The remark without its place. -/
def Label.placeless (label : Label) : Label := { label with span := .nowhere }

/-- The diagnostic without its places. -/
def Diagnostic.placeless (d : Diagnostic) : Diagnostic :=
  ⟨d.problem, d.labels.map Label.placeless⟩

/-- Tokens without their places are known from their words. -/
theorem map_placeless_eq {tokens others : List Placed} (h : words tokens = words others) :
    tokens.map Placed.placeless = others.map Placed.placeless := by
  have hplace : ∀ ts : List Placed,
      ts.map Placed.placeless = (words ts).map fun token => ⟨token, .nowhere⟩ := by
    intro ts
    simp only [words, List.map_map]
    rfl
  rw [hplace, hplace, h]

/-- What is said of the token that cannot stand where it stands, without its place. -/
def placelessRefusal (failed : Expectation × Option Placed) : Diagnostic :=
  match failed.2 with
  | some t => .single (.unexpectedToken failed.1) .nowhere ("found `" ++ t.token.written ++ "`")
  | none => .single (.unexpectedToken failed.1) .nowhere "found end of input"

/-- The reader needs no places. -/
theorem Program.ofTokens_placeless (tokens : List Placed) :
    ((Program.ofTokens tokens).map Program.bare).mapError Diagnostic.placeless =
      (Draft.start.placeless.read ((significant tokens).map Placed.placeless)).mapError
        placelessRefusal := by
  rw [Draft.read_placeless, Program.ofTokens]
  rcases Draft.start.read (significant tokens) with ⟨expected, - | t⟩ | program
  · rfl
  · rfl
  · rfl

/-- The same words are the same script, or are refused with the same diagnostic, wherever they
stand. -/
theorem Program.ofTokens_eq_of_words {tokens others : List Placed}
    (h : words (significant tokens) = words (significant others)) :
    ((Program.ofTokens tokens).map Program.bare).mapError Diagnostic.placeless =
      ((Program.ofTokens others).map Program.bare).mapError Diagnostic.placeless := by
  rw [Program.ofTokens_placeless, Program.ofTokens_placeless, map_placeless_eq h]

end LandPattern.Script
