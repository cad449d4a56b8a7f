import LandPattern.Proofs.Script.Nesting

/-!
# Open brackets

At every moment the reader is inside a row of bracketed constructs, each of which one token opened
and another one will close. A token that the reader takes either opens one more, or closes the
innermost one and fits its kind, or leaves them as they are. So the bracket check, which counts
without looking at kinds, knows how many are open for as long as the reader goes on, and what it
lets through is never read deeper than its limit. This holds for tokens of any shape, since nothing
is read behind the first token that is refused.
-/

namespace LandPattern.Script

/-- The kinds of text between brackets. -/
inductive Construct where
  /-- Statements between braces. -/
  | block
  /-- An expression or a tuple between parentheses. -/
  | group
  | list
  | arguments
  | params
  /-- The position in an object. -/
  | index
  deriving DecidableEq

namespace Construct

/-- The token that opens a construct of this kind. -/
def opening : Construct → Token
  | .block => .leftBrace
  | .group | .arguments | .params => .leftParen
  | .list | .index => .leftBracket

/-- The token that closes a construct of this kind. -/
def closing : Construct → Token
  | .block => .rightBrace
  | .group | .arguments | .params => .rightParen
  | .list | .index => .rightBracket

@[simp] theorem isOpening_opening (k : Construct) : k.opening.isOpening = true := by
  cases k <;> rfl

@[simp] theorem isOpening_closing (k : Construct) : k.closing.isOpening = false := by
  cases k <;> rfl

@[simp] theorem isClosing_closing (k : Construct) : k.closing.isClosing = true := by
  cases k <;> rfl

end Construct

/-- The construct that is open where this waits; operators wait outside of brackets. -/
def Wait.construct? : Wait → Option Construct
  | .unary _ _ | .binary _ _ => none
  | .group _ _ => some .group
  | .list _ _ => some .list
  | .arguments _ _ _ => some .arguments
  | .index _ => some .index

mutual

/-- The constructs that are open inside a block that is open itself, the innermost one first. -/
def OpenBlock.opened (block : OpenBlock) : List Construct :=
  match block with
  | .mk purpose _ _ => .block :: purpose.opened
termination_by structural block

/-- The constructs that are open around what a block is the body of. -/
def Purpose.opened (purpose : Purpose) : List Construct :=
  match purpose with
  | .function _ _ _ => []
  | .branch outer _ _ _ | .otherwise outer _ _ | .loop outer _ _ _ => outer.opened
termination_by structural purpose

end

/-- The constructs that are open around an expression. -/
def Slot.opened : Slot → List Construct
  | .constant _ => []
  | .bind block _ _ | .giveBack block _ | .bare block | .assign block _ _ | .condition block _ _
  | .iterable block _ _ => block.opened

/-- The constructs that are open where the reader stands. -/
def Point.opened : Point → List Construct
  | .item | .functionName _ | .functionParams _ _ | .constantName | .constantEquals _ => []
  | .param _ _ _ | .afterParam _ _ _ => [.params]
  | .block purpose => purpose.opened
  | .statement outer | .bindName outer _ | .bindEquals outer _ _ | .loopName outer _
  | .loopIn outer _ _ | .afterBranch outer _ _ _ | .afterElse outer _ _ => outer.opened
  | .operand slot stack | .argumentName slot stack _ | .operator slot stack _
  | .fieldName slot stack _ | .afterField slot stack _ _ =>
    stack.filterMap Wait.construct? ++ slot.opened

/-- The constructs that are open in a draft, the innermost one first. -/
def Draft.opened (d : Draft) : List Construct := d.point.opened

/-- The drafts between the tokens, from this one up to the one that refuses a token. -/
def Draft.moments (d : Draft) : List Placed → List Draft
  | [] => [d]
  | t :: rest => d :: match d.step t with
    | .ok next => next.moments rest
    | .error _ => []

/-- The most constructs that are open at once while the tokens are read. -/
def deepestNesting (tokens : List Placed) : Nat :=
  ((Draft.start.moments (significant tokens)).map fun d => d.opened.length).foldr max 0

/-- What a token does to the open constructs, the innermost of which comes first. -/
inductive Turn : List Construct → Token → List Construct → Prop where
  | opens (k : Construct) (outer : List Construct) : Turn outer k.opening (k :: outer)
  | closes (k : Construct) (outer : List Construct) : Turn (k :: outer) k.closing outer
  | stays {t : Token} (h : t.isBracket = false) (outer : List Construct) : Turn outer t outer

@[simp] theorem OpenBlock.opened_push (block : OpenBlock) (s : Stmt) :
    (block.push s).opened = block.opened := by
  cases block
  rfl

/-- Completing operators closes no bracket. -/
theorem construct?_settle (level : Nat) (stack : List Wait) (e : Expr) :
    (settle level stack e).1.filterMap Wait.construct? = stack.filterMap Wait.construct? := by
  induction stack generalizing e with
  | nil => rfl
  | cons wait outer ih =>
    cases wait with
    | unary op span =>
      by_cases hle : level ≤ op.level
      · rw [settle, if_pos hle, ih]
        rfl
      · rw [settle, if_neg hle]
    | binary op left =>
      by_cases hle : level ≤ op.level
      · rw [settle, if_pos hle, ih]
        rfl
      · rw [settle, if_neg hle]
    | _ => rfl

section Steps

variable {items : List Item} {slot : Slot} {stack : List Wait} {t : Placed} {next : Draft}
  {e : Expr}

/-- A turn by a token whose kind is known. -/
theorem Turn.closes_of_eq {before outer : List Construct} (k : Construct)
    (hb : before = k :: outer) : Turn before k.closing outer := by
  subst hb
  exact .closes k outer

theorem Turn.stays_of_eq {token : Token} {outer after : List Construct}
    (ht : token.isBracket = false) (ha : after = outer) : Turn outer token after := by
  subst ha
  exact .stays ht _

theorem isBracket_of_literal? {token : Token} {s : Span} (h : token.literal? s = some e) :
    token.isBracket = false := by
  cases token <;> first | rfl | cases h

theorem isBracket_of_binaryOp? {token : Token} {op : BinaryOp} (h : token.binaryOp? = some op) :
    token.isBracket = false := by
  cases token <;> first | rfl | cases h

theorem isBracket_of_assignOp? {token : Token} {op : AssignOp} (h : token.assignOp? = some op) :
    token.isBracket = false := by
  cases token <;> first | rfl | cases h

theorem EmptyMove.turn (h : EmptyMove items slot stack t next) :
    Turn (stack.filterMap Wait.construct? ++ slot.opened) t.token next.opened := by
  cases h with
  | tuple => exact .closes .group _
  | list => exact .closes .list _
  | call => exact .closes .arguments _
  | giveNothing => exact .stays_of_eq rfl (OpenBlock.opened_push _ _)

theorem OperandMove.turn (h : OperandMove items slot stack t next) :
    Turn (stack.filterMap Wait.construct? ++ slot.opened) t.token next.opened := by
  cases h with
  | not _ => exact .stays rfl _
  | neg => exact .stays rfl _
  | group => exact .opens .group _
  | list => exact .opens .list _
  | argumentName => exact .stays rfl _
  | literal he => exact .stays (isBracket_of_literal? he) _
  | empty h => exact h.turn

theorem BracketMove.turn (h : BracketMove items slot e stack t next) :
    Turn (stack.filterMap Wait.construct? ++ slot.opened) t.token next.opened := by
  cases h with
  | nextInGroup | nextInList | nextArgument => exact .stays rfl _
  | group | tuple _ => exact .closes .group _
  | list => exact .closes .list _
  | call => exact .closes .arguments _
  | index => exact .closes .index _

/-- The end of a statement leaves the blocks around it open. -/
theorem opened_of_finish? {close : Span} (hs : slot.finish? items e close = some next) :
    next.opened = slot.opened := by
  cases slot with
  | constant name | bind block start name | giveBack block start | bare block
  | assign block target op =>
    cases hs
    first | rfl | exact OpenBlock.opened_push _ _
  | condition block start done | iterable block start var => cases hs

theorem EndMove.turn (h : EndMove items e slot t next) : Turn slot.opened t.token next.opened := by
  cases h with
  | finish hfinish => exact .stays_of_eq rfl (opened_of_finish? hfinish)
  | branch | loop => exact .opens .block _
  | assign hop => exact .stays (isBracket_of_assignOp? hop) _

theorem OperatorMove.turn (h : OperatorMove items slot stack e t next) :
    Turn (stack.filterMap Wait.construct? ++ slot.opened) t.token next.opened := by
  cases h with
  | dot => exact .stays rfl _
  | call => exact .opens .arguments _
  | index => exact .opens .index _
  | @binary _ op hop _ =>
    rw [← construct?_settle op.leftLevel stack e]
    exact .stays (isBracket_of_binaryOp? hop) _
  | ends hempty h =>
    rw [← construct?_settle 0 stack e, hempty]
    exact h.turn
  | bracket h =>
    rw [← construct?_settle 0 stack e]
    exact h.turn

/-- The closing brace closes the block, and nothing else. -/
theorem OpenBlock.opened_finish (block : OpenBlock) (close : Span) :
    block.opened = .block :: (block.finish items close).opened := by
  obtain ⟨purpose, start, done⟩ := block
  cases purpose with
  | function first name params => rfl
  | branch outer first branches condition => rfl
  | otherwise outer first branches =>
    exact congrArg (Construct.block :: ·) (OpenBlock.opened_push _ _).symm
  | loop outer first var iterable =>
    exact congrArg (Construct.block :: ·) (OpenBlock.opened_push _ _).symm

theorem StatementMove.turn {block : OpenBlock} (h : StatementMove items block t next) :
    Turn block.opened t.token next.opened := by
  cases h with
  | @finish close => exact .closes_of_eq .block (block.opened_finish close)
  | bind | giveBack | choose | loop => exact .stays rfl _
  | bare h => exact h.turn

/-- A token that the reader takes opens a construct, or closes the innermost one, or is no
bracket. -/
theorem Move.turn {point : Point} (h : Move items point t next) :
    Turn point.opened t.token next.opened := by
  cases h with
  | function | functionName | param | nextParam | constant | constantName | constantEquals
  | bindName | bindEquals | loopName | loopIn | otherwise | elseIf | keyword | fieldName =>
    exact .stays rfl _
  | openParams => exact .opens .params _
  | noParam | lastParam => exact .closes .params _
  | block | elseBlock => exact .opens .block _
  | method => exact .opens .arguments _
  | statement h => exact h.turn
  | chosen h =>
    have hturn := h.turn
    rwa [OpenBlock.opened_push] at hturn
  | operand h => exact h.turn
  | argument h => exact h.turn
  | operator h => exact h.turn
  | field _ h => exact h.turn

end Steps

theorem Draft.turn_of_step {d next : Draft} {t : Placed} (hs : d.step t = .ok next) :
    Turn d.opened t.token next.opened :=
  (Draft.move_of_step hs).turn

/-- The bracket check counts the constructs that are open. -/
theorem Turn.levelAfter_cons {before after : List Construct} {t : Token} {limit : Nat}
    (h : Turn before t after) (hb : before.length ≤ limit) (rest : List Token) :
    levelAfter limit before.length (t :: rest) =
      if after.length ≤ limit then levelAfter limit after.length rest else none := by
  cases h with
  | opens k =>
    rw [levelAfter, if_pos k.isOpening_opening, List.length_cons]
    by_cases hroom : limit < before.length + 1
    · rw [if_pos hroom, if_neg (Nat.not_le_of_lt hroom)]
    · rw [if_neg hroom, if_pos (Nat.le_of_not_lt hroom)]
  | closes k =>
    rw [List.length_cons] at hb
    rw [levelAfter, k.isOpening_closing, k.isClosing_closing, List.length_cons, Nat.add_sub_cancel,
      if_pos (Nat.le_of_succ_le hb)]
    rfl
  | stays ht =>
    obtain ⟨ho, hc⟩ := Bool.or_eq_false_iff.1 ht
    rw [levelAfter, ho, hc, if_pos hb]
    rfl

/-- What the check lets through is never read deeper than the limit. -/
theorem Draft.opened_le_of_levelAfter {d : Draft} {limit : Nat} {ts : List Placed}
    (hd : d.opened.length ≤ limit)
    (h : (levelAfter limit d.opened.length (words ts)).isSome = true) :
    ∀ m ∈ d.moments ts, m.opened.length ≤ limit := by
  induction ts generalizing d with
  | nil =>
    intro m hm
    rw [List.mem_singleton.1 hm]
    exact hd
  | cons t rest ih =>
    intro m hm
    rcases List.mem_cons.1 hm with rfl | hlater
    · exact hd
    · cases hs : d.step t with
      | error expected =>
        rw [hs] at hlater
        exact absurd hlater List.not_mem_nil
      | ok next =>
        rw [hs] at hlater
        have hword : words (t :: rest) = t.token :: words rest := rfl
        rw [hword, (Draft.turn_of_step hs).levelAfter_cons hd] at h
        split at h
        · rename_i hnext
          exact ih hnext h m hlater
        · cases h

/-- What is read to its end without going deeper than the limit is let through. -/
theorem Draft.levelAfter_of_opened_le {d : Draft} {limit : Nat} {ts : List Placed} {p : Program}
    (hr : d.read ts = .ok p) (hm : ∀ m ∈ d.moments ts, m.opened.length ≤ limit) :
    (levelAfter limit d.opened.length (words ts)).isSome = true := by
  induction ts generalizing d with
  | nil => rfl
  | cons t rest ih =>
    have hd : d.opened.length ≤ limit := hm d List.mem_cons_self
    rw [Draft.read] at hr
    cases hs : d.step t with
    | error expected =>
      rw [hs] at hr
      cases hr
    | ok next =>
      rw [hs] at hr
      have hlater : ∀ m ∈ next.moments rest, m.opened.length ≤ limit := by
        intro m hmem
        refine hm m (List.mem_cons_of_mem _ ?_)
        rw [hs]
        exact hmem
      have hnext : next.opened.length ≤ limit := by
        refine hlater next ?_
        cases rest <;> exact List.mem_cons_self
      have hword : words (t :: rest) = t.token :: words rest := rfl
      rw [hword, (Draft.turn_of_step hs).levelAfter_cons hd, if_pos hnext]
      exact ih hr hlater

theorem foldr_max_le_iff {ns : List Nat} {bound : Nat} :
    ns.foldr max 0 ≤ bound ↔ ∀ n ∈ ns, n ≤ bound := by
  induction ns with
  | nil => simp
  | cons n rest ih => rw [List.foldr_cons, Nat.max_le, ih, List.forall_mem_cons]

theorem deepestNesting_le_iff {tokens : List Placed} {limit : Nat} :
    deepestNesting tokens ≤ limit ↔
      ∀ d ∈ Draft.start.moments (significant tokens), d.opened.length ≤ limit := by
  rw [deepestNesting, foldr_max_le_iff, List.forall_mem_map]

/-- While tokens are read that the bracket check lets through, no more constructs than the limit are
open at any moment, whatever the tokens are and wherever the reading ends. Where the tokens are a
script, the check lets them through exactly at the limits that are not below the deepest nesting. -/
theorem bracket_check_bounds_reader (tokens : List Placed) (limit : Nat) :
    (tooDeepBracket? limit 0 tokens = none →
      ∀ d ∈ Draft.start.moments (significant tokens), d.opened.length ≤ limit) ∧
    ∀ p, Program.ofTokens tokens = .ok p →
      (tooDeepBracket? limit 0 tokens = none ↔ deepestNesting tokens ≤ limit) := by
  have hstart : Draft.start.opened.length ≤ limit := Nat.zero_le limit
  have hbound : tooDeepBracket? limit 0 tokens = none →
      ∀ d ∈ Draft.start.moments (significant tokens), d.opened.length ≤ limit := fun h =>
    Draft.opened_le_of_levelAfter hstart ((tooDeepBracket?_eq_none_iff limit 0 tokens).1 h)
  refine ⟨hbound, fun p hp => ⟨fun h => deepestNesting_le_iff.2 (hbound h), fun h => ?_⟩⟩
  have hread : Draft.start.read (significant tokens) = .ok p := Program.ofTokens_eq_ok_iff.1 hp
  exact (tooDeepBracket?_eq_none_iff limit 0 tokens).2
    (Draft.levelAfter_of_opened_le hread (deepestNesting_le_iff.1 h))

/-- The tokens of `let a = [(1)];`. -/
def groupedTokens : List Placed :=
  [⟨.wordLet, ⟨0, 3⟩⟩, ⟨.blank, ⟨3, 4⟩⟩, ⟨.name "a", ⟨4, 5⟩⟩, ⟨.equals, ⟨6, 7⟩⟩,
    ⟨.leftBracket, ⟨8, 9⟩⟩, ⟨.leftParen, ⟨9, 10⟩⟩, ⟨.int 1, ⟨10, 11⟩⟩, ⟨.rightParen, ⟨11, 12⟩⟩,
    ⟨.rightBracket, ⟨12, 13⟩⟩, ⟨.semicolon, ⟨13, 14⟩⟩]

/-- The tokens of `let a = (]](`, whose brackets do not fit each other. -/
def crossedTokens : List Placed :=
  [⟨.wordLet, ⟨0, 3⟩⟩, ⟨.name "a", ⟨4, 5⟩⟩, ⟨.equals, ⟨6, 7⟩⟩, ⟨.leftParen, ⟨8, 9⟩⟩,
    ⟨.rightBracket, ⟨9, 10⟩⟩, ⟨.rightBracket, ⟨10, 11⟩⟩, ⟨.leftParen, ⟨11, 12⟩⟩]

/-- A group in a list is let through at the limit of two and not at one. Crossed brackets are let
through at the limit of one, and are read no deeper, though they are no script. -/
theorem bracket_check_bounds_reader_grouped :
    (∃ p, Program.ofTokens groupedTokens = .ok p) ∧ deepestNesting groupedTokens = 2 ∧
      tooDeepBracket? 2 0 groupedTokens = none ∧ tooDeepBracket? 1 0 groupedTokens ≠ none ∧
      (∃ problem, Program.ofTokens crossedTokens = .error problem) ∧
      tooDeepBracket? 1 0 crossedTokens = none ∧
      ∀ d ∈ Draft.start.moments (significant crossedTokens), d.opened.length ≤ 1 := by
  obtain ⟨p, hp⟩ : ∃ p, Program.ofTokens groupedTokens = .ok p := ⟨_, rfl⟩
  have hdeepest : deepestNesting groupedTokens = 2 := rfl
  have htwo := (bracket_check_bounds_reader groupedTokens 2).2 p hp
  have hone := (bracket_check_bounds_reader groupedTokens 1).2 p hp
  have hcrossed : tooDeepBracket? 1 0 crossedTokens = none := rfl
  rw [hdeepest] at htwo hone
  exact ⟨⟨p, hp⟩, hdeepest, htwo.2 (by decide), fun h => absurd (hone.1 h) (by decide), ⟨_, rfl⟩,
    hcrossed, (bracket_check_bounds_reader crossedTokens 1).1 hcrossed⟩

end LandPattern.Script
