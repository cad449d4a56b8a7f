import LandPattern.Proofs.Script.Reading

/-!
# Completing unfinished scripts

Whatever the reader has taken in so far can still become a script: the operand that is missing is
written as `none`, the brackets are closed from the innermost one on, then the statement ends, and
then the blocks are closed.
-/

namespace LandPattern.Script

/-- Some tokens that carry meaning make a script of the draft. -/
def Draft.Completes (d : Draft) : Prop :=
  ∃ (tokens : List Placed) (p : Program), significant tokens = tokens ∧ d.read tokens = .ok p

/-- The token where no place is given. -/
def Token.anywhere (token : Token) : Placed := ⟨token, .nowhere⟩

namespace Draft.Completes

variable {d next : Draft}

/-- One token more, and the rest completes what it leads to. -/
theorem of_step (token : Token) (ht : token.isTrivia = false)
    (hs : d.step token.anywhere = .ok next) (h : next.Completes) : d.Completes := by
  obtain ⟨tokens, p, hm, hr⟩ := h
  refine ⟨token.anywhere :: tokens, p, ?_, ?_⟩
  · have hkeep : (!token.anywhere.token.isTrivia) = true := by simp [Token.anywhere, ht]
    rw [significant, List.filter_cons, if_pos hkeep, ← significant, hm]
  · rw [Draft.read, hs]
    exact hr

theorem item (items : List Item) : Draft.Completes ⟨items, .item⟩ :=
  ⟨[], ⟨items.reverse⟩, rfl, rfl⟩

mutual

/-- A block that closes leads to a draft that closes the block around it. -/
theorem finish (items : List Item) (purpose : Purpose) (start : Span) (done : List Stmt) :
    Draft.Completes ((OpenBlock.mk purpose start done).finish items .nowhere) := by
  match purpose with
  | .function first name params => exact item _
  | .branch outer first branches condition =>
    exact of_step .rightBrace rfl rfl (finish_push items outer _)
  | .otherwise outer first branches =>
    exact of_step .rightBrace rfl rfl (finish_push items outer _)
  | .loop outer first var iterable =>
    exact of_step .rightBrace rfl rfl (finish_push items outer _)
termination_by structural purpose

theorem finish_push (items : List Item) (block : OpenBlock) (s : Stmt) :
    Draft.Completes ((block.push s).finish items .nowhere) := by
  match block with
  | .mk purpose start done => exact finish items purpose start (s :: done)
termination_by structural block

end

/-- Before a statement, all open blocks can be closed. -/
theorem statement (items : List Item) (block : OpenBlock) :
    Draft.Completes ⟨items, .statement block⟩ := by
  obtain ⟨purpose, start, done⟩ := block
  exact of_step .rightBrace rfl rfl (finish items purpose start done)

theorem openBlock (items : List Item) (purpose : Purpose) :
    Draft.Completes ⟨items, .block purpose⟩ :=
  of_step .leftBrace rfl rfl (statement items _)


end Draft.Completes

/-- Tokens that end an expression and do nothing else: they make no name a keyword, and open no
arguments. -/
def Token.closes : Token → Bool
  | .rightParen | .rightBracket | .semicolon | .leftBrace => true
  | _ => false

theorem Token.endsExpression_of_closes {token : Token} (h : token.closes = true) :
    token.endsExpression = true := by
  cases token <;> first | rfl | cases h

/-- Some token ends the expression `e`, and the draft it leads to can be completed. -/
def Closable (items : List Item) (slot : Slot) (stack : List Wait) (e : Expr) : Prop :=
  ∃ (token : Token) (next : Draft), token.closes = true ∧
    stepOperator items slot stack e token.anywhere = .ok next ∧ next.Completes

variable (items : List Item) (slot : Slot)

/-- Outside all brackets the statement ends, or its block begins. -/
theorem closable_nil (e : Expr) : Closable items slot [] e := by
  cases slot with
  | constant name => exact ⟨.semicolon, _, rfl, rfl, .item _⟩
  | condition block start done => exact ⟨.leftBrace, _, rfl, rfl, .statement _ _⟩
  | iterable block start var => exact ⟨.leftBrace, _, rfl, rfl, .statement _ _⟩
  | _ => exact ⟨.semicolon, _, rfl, rfl, .statement _ _⟩

/-- What is behind an operand can be completed, given that it is closable. -/
theorem Closable.operator {stack : List Wait} {e : Expr} (h : Closable items slot stack e) :
    Draft.Completes ⟨items, .operator slot stack e⟩ := by
  obtain ⟨token, next, ht, hs, hn⟩ := h
  exact .of_step token (by cases token <;> first | rfl | cases ht) hs hn

/-- Behind an operand, the operators that wait are complete, and the brackets close one after the
other. -/
theorem closable (stack : List Wait) (e : Expr) : Closable items slot stack e := by
  induction stack generalizing e with
  | nil => exact closable_nil items slot e
  | cons w outer ih =>
    have hclosed : ∀ e, Draft.Completes ⟨items, .operator slot outer e⟩ :=
      fun e => (ih e).operator
    cases w with
    | unary op span =>
      obtain ⟨token, next, ht, hs, hn⟩ := ih (.unary (span.cover e.span) op e)
      refine ⟨token, next, ht, ?_, hn⟩
      rw [stepOperator_of_endsExpression _ _ _ _ (Token.endsExpression_of_closes ht)] at hs ⊢
      rw [settle, if_pos (Nat.zero_le _)]
      exact hs
    | binary op left =>
      obtain ⟨token, next, ht, hs, hn⟩ := ih (.binary (left.span.cover e.span) op left e)
      refine ⟨token, next, ht, ?_, hn⟩
      rw [stepOperator_of_endsExpression _ _ _ _ (Token.endsExpression_of_closes ht)] at hs ⊢
      rw [settle, if_pos (Nat.zero_le _)]
      exact hs
    | group start done =>
      cases done with
      | nil => exact ⟨.rightParen, _, rfl, rfl, hclosed _⟩
      | cons first more => exact ⟨.rightParen, _, rfl, rfl, hclosed _⟩
    | list start done => exact ⟨.rightBracket, _, rfl, rfl, hclosed _⟩
    | arguments head done keyword => exact ⟨.rightParen, _, rfl, rfl, hclosed _⟩
    | index object => exact ⟨.rightBracket, _, rfl, rfl, hclosed _⟩

/-- A name that may be a keyword, and a field that may be a method, are operands when the expression
ends behind them. -/
theorem completes_behind (stack : List Wait) (e : Expr) {point : Point}
    (h : ∀ token : Token, token.closes = true →
      Draft.step ⟨items, point⟩ token.anywhere = stepOperator items slot stack e token.anywhere) :
    Draft.Completes ⟨items, point⟩ := by
  obtain ⟨token, next, ht, hs, hn⟩ := closable items slot stack e
  exact .of_step token (by cases token <;> first | rfl | cases ht) ((h token ht).trans hs) hn

theorem completes_operand (stack : List Wait) :
    Draft.Completes ⟨items, .operand slot stack⟩ :=
  .of_step .wordNone rfl rfl (closable items slot stack _).operator

theorem completes_afterField (stack : List Wait) (object : Expr) (name : Name) :
    Draft.Completes ⟨items, .afterField slot stack object name⟩ := by
  refine completes_behind items slot stack (.field (object.span.cover name.span) object name)
    fun token ht => ?_
  cases token <;> first | rfl | cases ht

theorem completes_argumentName (stack : List Wait) (name : Name) :
    Draft.Completes ⟨items, .argumentName slot stack name⟩ := by
  refine completes_behind items slot stack (.name name.span name.text) fun token ht => ?_
  rcases stack with - | ⟨w, outer⟩
  · rfl
  · cases w with
    | arguments head done keyword =>
      cases keyword with
      | none => cases token <;> first | rfl | cases ht
      | some found => rfl
    | _ => rfl

/-- Every draft can be completed, whatever it holds. -/
theorem Draft.completes (d : Draft) : d.Completes := by
  obtain ⟨items, point⟩ := d
  cases point with
  | item => exact .item items
  | statement block => exact .statement items block
  | block purpose => exact .openBlock items purpose
  | operand slot stack => exact completes_operand items slot stack
  | operator slot stack e => exact (closable items slot stack e).operator
  | argumentName slot stack name => exact completes_argumentName items slot stack name
  | afterField slot stack object name => exact completes_afterField items slot stack object name
  | fieldName slot stack object =>
    exact .of_step (.name "x") rfl rfl (completes_afterField items slot stack object _)
  | constantEquals name => exact .of_step .equals rfl rfl (completes_operand items _ _)
  | constantName =>
    exact .of_step (.name "x") rfl rfl (.of_step .equals rfl rfl (completes_operand items _ _))
  | bindEquals block start name => exact .of_step .equals rfl rfl (completes_operand items _ _)
  | bindName block start =>
    exact .of_step (.name "x") rfl rfl (.of_step .equals rfl rfl (completes_operand items _ _))
  | loopIn block start var => exact .of_step .wordIn rfl rfl (completes_operand items _ _)
  | loopName block start =>
    exact .of_step (.name "x") rfl rfl (.of_step .wordIn rfl rfl (completes_operand items _ _))
  | afterElse block start done => exact .of_step .leftBrace rfl rfl (.statement items _)
  | afterBranch block start done last =>
    exact .of_step .rightBrace rfl rfl (.finish_push items block _)
  | param start name done => exact .of_step .rightParen rfl rfl (.openBlock items _)
  | afterParam start name done => exact .of_step .rightParen rfl rfl (.openBlock items _)
  | functionParams start name =>
    exact .of_step .leftParen rfl rfl (.of_step .rightParen rfl rfl (.openBlock items _))
  | functionName start =>
    exact .of_step (.name "x") rfl rfl
      (.of_step .leftParen rfl rfl (.of_step .rightParen rfl rfl (.openBlock items _)))

end LandPattern.Script
