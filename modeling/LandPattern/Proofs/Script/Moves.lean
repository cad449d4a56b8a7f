import LandPattern.Proofs.Script.Printer

/-!
# The moves of the reader

A token that the reader takes moves it from one draft to the next. The rules here name all of its
moves, each with the token that is taken and the draft that is left, so that what every move keeps
is proved by cases over the rules, and not over the branches of the reader.
-/

namespace LandPattern.Script

/-- A bracket closes where an item could have come, or a statement ends where its value could have
come. -/
inductive EmptyMove (items : List Item) : Slot → List Wait → Placed → Draft → Prop where
  | tuple {slot start done outer close} :
    EmptyMove items slot (.group start done :: outer) ⟨.rightParen, close⟩
      ⟨items, .operator slot outer (.tuple (start.cover close) done.reverse)⟩
  | list {slot start done outer close} :
    EmptyMove items slot (.list start done :: outer) ⟨.rightBracket, close⟩
      ⟨items, .operator slot outer (.list (start.cover close) done.reverse)⟩
  | call {slot head done outer close} :
    EmptyMove items slot (.arguments head done none :: outer) ⟨.rightParen, close⟩
      ⟨items, .operator slot outer (head.apply done.reverse close)⟩
  | giveNothing {block start close} :
    EmptyMove items (.giveBack block start) [] ⟨.semicolon, close⟩
      ⟨items, .statement (block.push (.giveBack (start.cover close) none))⟩

/-- A token before an operand opens something, or it is an operand itself. -/
inductive OperandMove (items : List Item) (slot : Slot) : List Wait → Placed → Draft → Prop where
  | not {stack span} (h : allowsNot stack = true) :
    OperandMove items slot stack ⟨.wordNot, span⟩ ⟨items, .operand slot (.unary .not span :: stack)⟩
  | neg {stack span} :
    OperandMove items slot stack ⟨.minus, span⟩ ⟨items, .operand slot (.unary .neg span :: stack)⟩
  | group {stack span} :
    OperandMove items slot stack ⟨.leftParen, span⟩ ⟨items, .operand slot (.group span [] :: stack)⟩
  | list {stack span} :
    OperandMove items slot stack ⟨.leftBracket, span⟩
      ⟨items, .operand slot (.list span [] :: stack)⟩
  | argumentName {head done outer text span} :
    OperandMove items slot (.arguments head done none :: outer) ⟨.name text, span⟩
      ⟨items, .argumentName slot (.arguments head done none :: outer) ⟨text, span⟩⟩
  | literal {stack t e} (h : t.token.literal? t.span = some e) :
    OperandMove items slot stack t ⟨items, .operator slot stack e⟩
  | empty {stack t next} (h : EmptyMove items slot stack t next) :
    OperandMove items slot stack t next

/-- A bracket closes behind the finished expression `e`, or a comma ends an item. -/
inductive BracketMove (items : List Item) (slot : Slot) (e : Expr) :
    List Wait → Placed → Draft → Prop where
  | nextInGroup {start done outer span} :
    BracketMove items slot e (.group start done :: outer) ⟨.comma, span⟩
      ⟨items, .operand slot (.group start (e :: done) :: outer)⟩
  | nextInList {start done outer span} :
    BracketMove items slot e (.list start done :: outer) ⟨.comma, span⟩
      ⟨items, .operand slot (.list start (e :: done) :: outer)⟩
  | nextArgument {head done keyword outer span} :
    BracketMove items slot e (.arguments head done keyword :: outer) ⟨.comma, span⟩
      ⟨items, .operand slot
        (.arguments head (stepBracket.argument e keyword :: done) none :: outer)⟩
  | group {start outer close} :
    BracketMove items slot e (.group start [] :: outer) ⟨.rightParen, close⟩
      ⟨items, .operator slot outer (e.withSpan (start.cover close))⟩
  | tuple {start done outer close} (h : done ≠ []) :
    BracketMove items slot e (.group start done :: outer) ⟨.rightParen, close⟩
      ⟨items, .operator slot outer (.tuple (start.cover close) (e :: done).reverse)⟩
  | list {start done outer close} :
    BracketMove items slot e (.list start done :: outer) ⟨.rightBracket, close⟩
      ⟨items, .operator slot outer (.list (start.cover close) (e :: done).reverse)⟩
  | call {head done keyword outer close} :
    BracketMove items slot e (.arguments head done keyword :: outer) ⟨.rightParen, close⟩
      ⟨items, .operator slot outer
        (head.apply (stepBracket.argument e keyword :: done).reverse close)⟩
  | index {object outer close} :
    BracketMove items slot e (.index object :: outer) ⟨.rightBracket, close⟩
      ⟨items, .operator slot outer (.index (object.span.cover close) object e)⟩

/-- The expression `e` ends outside of all brackets, and with it a statement or its first part. -/
inductive EndMove (items : List Item) (e : Expr) : Slot → Placed → Draft → Prop where
  | finish {slot close next} (h : slot.finish? items e close = some next) :
    EndMove items e slot ⟨.semicolon, close⟩ next
  | branch {block start done span} :
    EndMove items e (.condition block start done) ⟨.leftBrace, span⟩
      ⟨items, .statement (.mk (.branch block start done e) span [])⟩
  | loop {block start var span} :
    EndMove items e (.iterable block start var) ⟨.leftBrace, span⟩
      ⟨items, .statement (.mk (.loop block start var e) span [])⟩
  | assign {block t op} (h : t.token.assignOp? = some op) :
    EndMove items e (.bare block) t ⟨items, .operand (.assign block e op) []⟩

/-- A token behind the operand `e` goes on with it, or ends it together with the operators that wait
for it. A comparison does not stand beside another one. -/
inductive OperatorMove (items : List Item) (slot : Slot) (stack : List Wait) (e : Expr) :
    Placed → Draft → Prop where
  | dot {span} : OperatorMove items slot stack e ⟨.dot, span⟩ ⟨items, .fieldName slot stack e⟩
  | call {span} :
    OperatorMove items slot stack e ⟨.leftParen, span⟩
      ⟨items, .operand slot (.arguments (.call e) [] none :: stack)⟩
  | index {span} :
    OperatorMove items slot stack e ⟨.leftBracket, span⟩ ⟨items, .operand slot (.index e :: stack)⟩
  | binary {t op} (h : t.token.binaryOp? = some op)
    (beside : op.level = comparisonLevel → ∀ other left outer,
      (settle op.leftLevel stack e).1 = .binary other left :: outer →
        other.level ≠ comparisonLevel) :
    OperatorMove items slot stack e t
      ⟨items, .operand slot
        (.binary op (settle op.leftLevel stack e).2 :: (settle op.leftLevel stack e).1)⟩
  | ends {t next} (hs : (settle 0 stack e).1 = [])
    (h : EndMove items (settle 0 stack e).2 slot t next) : OperatorMove items slot stack e t next
  | bracket {t next}
    (h : BracketMove items slot (settle 0 stack e).2 (settle 0 stack e).1 t next) :
    OperatorMove items slot stack e t next

/-- A token before a statement begins it, or ends the block. -/
inductive StatementMove (items : List Item) (block : OpenBlock) : Placed → Draft → Prop where
  | finish {close} : StatementMove items block ⟨.rightBrace, close⟩ (block.finish items close)
  | bind {span} : StatementMove items block ⟨.wordLet, span⟩ ⟨items, .bindName block span⟩
  | giveBack {span} :
    StatementMove items block ⟨.wordReturn, span⟩ ⟨items, .operand (.giveBack block span) []⟩
  | choose {span} :
    StatementMove items block ⟨.wordIf, span⟩ ⟨items, .operand (.condition block span []) []⟩
  | loop {span} : StatementMove items block ⟨.wordFor, span⟩ ⟨items, .loopName block span⟩
  | bare {t next} (h : OperandMove items (.bare block) [] t next) : StatementMove items block t next

/-- A token moves the reader on from where it stands. -/
inductive Move (items : List Item) : Point → Placed → Draft → Prop where
  | function {span} : Move items .item ⟨.wordFn, span⟩ ⟨items, .functionName span⟩
  | functionName {start text span} :
    Move items (.functionName start) ⟨.name text, span⟩ ⟨items, .functionParams start ⟨text, span⟩⟩
  | openParams {start name span} :
    Move items (.functionParams start name) ⟨.leftParen, span⟩ ⟨items, .param start name []⟩
  | param {start name done text span} :
    Move items (.param start name done) ⟨.name text, span⟩
      ⟨items, .afterParam start name (⟨text, span⟩ :: done)⟩
  | nextParam {start name done span} :
    Move items (.afterParam start name done) ⟨.comma, span⟩ ⟨items, .param start name done⟩
  | noParam {start name done span} :
    Move items (.param start name done) ⟨.rightParen, span⟩
      ⟨items, .block (.function start name done.reverse)⟩
  | lastParam {start name done span} :
    Move items (.afterParam start name done) ⟨.rightParen, span⟩
      ⟨items, .block (.function start name done.reverse)⟩
  | block {purpose span} :
    Move items (.block purpose) ⟨.leftBrace, span⟩ ⟨items, .statement (.mk purpose span [])⟩
  | constant {span} : Move items .item ⟨.wordLet, span⟩ ⟨items, .constantName⟩
  | constantName {text span} :
    Move items .constantName ⟨.name text, span⟩ ⟨items, .constantEquals ⟨text, span⟩⟩
  | constantEquals {name span} :
    Move items (.constantEquals name) ⟨.equals, span⟩ ⟨items, .operand (.constant name) []⟩
  | statement {block t next} (h : StatementMove items block t next) :
    Move items (.statement block) t next
  | bindName {block start text span} :
    Move items (.bindName block start) ⟨.name text, span⟩
      ⟨items, .bindEquals block start ⟨text, span⟩⟩
  | bindEquals {block start name span} :
    Move items (.bindEquals block start name) ⟨.equals, span⟩
      ⟨items, .operand (.bind block start name) []⟩
  | loopName {block start text span} :
    Move items (.loopName block start) ⟨.name text, span⟩ ⟨items, .loopIn block start ⟨text, span⟩⟩
  | loopIn {block start var span} :
    Move items (.loopIn block start var) ⟨.wordIn, span⟩
      ⟨items, .operand (.iterable block start var) []⟩
  | otherwise {block start done last span} :
    Move items (.afterBranch block start done last) ⟨.wordElse, span⟩
      ⟨items, .afterElse block start done⟩
  | chosen {block start done last t next}
    (h : StatementMove items (block.push (.choose (start.cover last) done.reverse none)) t next) :
    Move items (.afterBranch block start done last) t next
  | elseIf {block start done span} :
    Move items (.afterElse block start done) ⟨.wordIf, span⟩
      ⟨items, .operand (.condition block start done) []⟩
  | elseBlock {block start done span} :
    Move items (.afterElse block start done) ⟨.leftBrace, span⟩
      ⟨items, .statement (.mk (.otherwise block start done) span [])⟩
  | operand {slot stack t next} (h : OperandMove items slot stack t next) :
    Move items (.operand slot stack) t next
  | keyword {slot head done outer name span} :
    Move items (.argumentName slot (.arguments head done none :: outer) name) ⟨.equals, span⟩
      ⟨items, .operand slot (.arguments head done (some name) :: outer)⟩
  | argument {slot stack name t next}
    (h : OperatorMove items slot stack (.name name.span name.text) t next) :
    Move items (.argumentName slot stack name) t next
  | operator {slot stack e t next} (h : OperatorMove items slot stack e t next) :
    Move items (.operator slot stack e) t next
  | fieldName {slot stack object text span} :
    Move items (.fieldName slot stack object) ⟨.name text, span⟩
      ⟨items, .afterField slot stack object ⟨text, span⟩⟩
  | method {slot stack object name span} :
    Move items (.afterField slot stack object name) ⟨.leftParen, span⟩
      ⟨items, .operand slot (.arguments (.method object name) [] none :: stack)⟩
  | field {slot stack object name t next} (hne : t.token ≠ .leftParen)
    (h : OperatorMove items slot stack (.field (object.span.cover name.span) object name) t next) :
    Move items (.afterField slot stack object name) t next

section Steps

variable {items : List Item} {slot : Slot} {stack : List Wait} {t : Placed} {next : Draft}
  {e : Expr}

theorem move_of_closeEmpty (hs : closeEmpty items slot stack t = .ok next) :
    EmptyMove items slot stack t next := by
  obtain ⟨token, span⟩ := t
  simp only [closeEmpty] at hs
  split at hs
  · cases hs
    exact .tuple
  · cases hs
    exact .list
  · cases hs
    exact .call
  · split at hs
    · cases hs
      exact .giveNothing
    · cases hs
  · cases hs

theorem move_of_stepOperand (hs : stepOperand items slot stack t = .ok next) :
    OperandMove items slot stack t next := by
  obtain ⟨token, span⟩ := t
  simp only [stepOperand] at hs
  split at hs
  · split at hs
    · rename_i hallowed
      cases hs
      exact .not hallowed
    · cases hs
  · cases hs
    exact .neg
  · cases hs
    exact .group
  · cases hs
    exact .list
  · split at hs
    · cases hs
      exact .argumentName
    · cases hs
      exact .literal rfl
  · split at hs
    · rename_i literal hliteral
      cases hs
      exact .literal hliteral
    · exact .empty (move_of_closeEmpty hs)

/-- What a binary operator leads to, when it may stand behind the operand. -/
theorem stepBinary_ok {op : BinaryOp} (hs : stepBinary items slot stack e op = .ok next) :
    next = ⟨items, .operand slot
        (.binary op (settle op.leftLevel stack e).2 :: (settle op.leftLevel stack e).1)⟩ ∧
      (op.level = comparisonLevel → ∀ other left outer,
        (settle op.leftLevel stack e).1 = .binary other left :: outer →
          other.level ≠ comparisonLevel) := by
  have hk : (if op.level != comparisonLevel then op.level else op.level + 1) = op.leftLevel := by
    unfold BinaryOp.leftLevel
    by_cases hc : op.level = comparisonLevel <;> simp [hc]
  simp only [stepBinary, hk] at hs
  split at hs
  · rename_i other left outer hstack
    split at hs
    · cases hs
    · rename_i hbeside
      cases hs
      refine ⟨rfl, fun hc other' left' outer' hother hcompare => hbeside ?_⟩
      rw [hstack] at hother
      cases hother
      simp [hc, hcompare]
  · rename_i hstack
    simp only [Bool.and_false, Bool.false_eq_true, if_false, Except.ok.injEq] at hs
    exact ⟨hs.symm, fun _ other left outer hother => absurd hother (hstack other left outer)⟩

theorem move_of_stepBracket (hs : stepBracket items slot stack e t = .ok next) :
    BracketMove items slot e stack t next := by
  obtain ⟨token, span⟩ := t
  simp only [stepBracket] at hs
  split at hs
  · cases hs
    exact .nextInGroup
  · cases hs
    exact .nextInList
  · cases hs
    exact .nextArgument
  · cases hs
    exact .group
  · rename_i hmore
    cases hs
    exact .tuple hmore
  · cases hs
    exact .list
  · cases hs
    exact .call
  · cases hs
    exact .index
  · cases hs

theorem move_of_stepEnd (hs : stepEnd items slot e t = .ok next) : EndMove items e slot t next := by
  obtain ⟨token, span⟩ := t
  simp only [stepEnd] at hs
  split at hs
  · split at hs
    · rename_i hfinish
      cases hs
      exact .finish hfinish
    · cases hs
  · split at hs
    · cases hs
      exact .branch
    · cases hs
      exact .loop
    · cases hs
  · split at hs
    · rename_i hop
      cases hs
      exact .assign hop
    · cases hs

theorem move_of_stepOperator (hs : stepOperator items slot stack e t = .ok next) :
    OperatorMove items slot stack e t next := by
  obtain ⟨token, span⟩ := t
  simp only [stepOperator] at hs
  split at hs
  · cases hs
    exact .dot
  · cases hs
    exact .call
  · cases hs
    exact .index
  · split at hs
    · rename_i op hop
      obtain ⟨rfl, hbeside⟩ := stepBinary_ok hs
      exact .binary hop hbeside
    · split at hs
      · rename_i whole hsettle
        have hmove := move_of_stepEnd hs
        exact .ends (by rw [hsettle]) (by rwa [hsettle])
      · rename_i outer whole hsettle
        have hmove := move_of_stepBracket hs
        exact .bracket (by rwa [hsettle])

theorem move_of_stepStatement {block : OpenBlock} (hs : stepStatement items block t = .ok next) :
    StatementMove items block t next := by
  obtain ⟨token, span⟩ := t
  simp only [stepStatement] at hs
  split at hs
  · cases hs
    exact .finish
  · cases hs
    exact .bind
  · cases hs
    exact .giveBack
  · cases hs
    exact .choose
  · cases hs
    exact .loop
  · exact .bare (move_of_stepOperand hs)

end Steps

/-- Every step of the reader is one of its moves. -/
theorem Draft.move_of_step {items : List Item} {point : Point} {t : Placed} {next : Draft}
    (hs : Draft.step ⟨items, point⟩ t = .ok next) : Move items point t next := by
  obtain ⟨token, span⟩ := t
  cases point with
  | statement block => exact .statement (move_of_stepStatement hs)
  | operand slot stack => exact .operand (move_of_stepOperand hs)
  | operator slot stack e => exact .operator (move_of_stepOperator hs)
  | item =>
    simp only [Draft.step] at hs
    split at hs
    · cases hs
      exact .function
    · cases hs
      exact .constant
    · cases hs
  | functionName start | functionParams start name | constantName | constantEquals name
  | block purpose | bindName block start | bindEquals block start name | loopName block start
  | loopIn block start var | fieldName slot stack object =>
    simp only [Draft.step] at hs
    split at hs
    · cases hs
      constructor
    · cases hs
  | param start name done =>
    simp only [Draft.step] at hs
    split at hs
    · cases hs
      exact .noParam
    · cases hs
      exact .param
    · cases hs
  | afterParam start name done =>
    simp only [Draft.step] at hs
    split at hs
    · cases hs
      exact .nextParam
    · cases hs
      exact .lastParam
    · cases hs
  | afterBranch block start done last =>
    simp only [Draft.step] at hs
    split at hs
    · cases hs
      exact .otherwise
    · exact .chosen (move_of_stepStatement hs)
  | afterElse block start done =>
    simp only [Draft.step] at hs
    split at hs
    · cases hs
      exact .elseIf
    · cases hs
      exact .elseBlock
    · cases hs
  | argumentName slot stack name =>
    simp only [Draft.step] at hs
    split at hs
    · cases hs
      exact .keyword
    · exact .argument (move_of_stepOperator hs)
  | afterField slot stack object name =>
    simp only [Draft.step] at hs
    split at hs
    · cases hs
      exact .method
    · rename_i hne
      exact .field hne (move_of_stepOperator hs)

end LandPattern.Script
