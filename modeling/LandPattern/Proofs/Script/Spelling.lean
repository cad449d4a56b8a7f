import LandPattern.Proofs.Script.Printer

/-!
# Spellings of scripts

All rows of tokens that write a tree: those of the printer, and those with more parentheses around
expressions and with commas behind the last of several items. A spelling of an expression is one
where an operand of some tightness is asked for; the tighter it binds, the more places take it.
-/

namespace LandPattern.Script

/-- The expression is written by these tokens, where one that binds as tight as `level` is asked
for. -/
inductive Spells : Nat → Expr → List Token → Prop where
  | literal {level : Nat} {t : Token} {s : Span} {e : Expr} (h : t.literal? s = some e) :
    Spells level e [t]
  | group {level : Nat} {e : Expr} {ts : List Token} (h : Spells 0 e ts) :
    Spells level e (parenthesized ts)
  | list {level : Nat} {s : Span} {items : List (Expr × List Token)} (trailing : Bool)
    (h : ∀ p ∈ items, Spells 0 p.1 p.2) :
    Spells level (.list s (items.map Prod.fst))
      (.leftBracket :: commas trailing (items.map Prod.snd) ++ [.rightBracket])
  | tuple {level : Nat} {s : Span} {items : List (Expr × List Token)} (trailing : Bool)
    (h : ∀ p ∈ items, Spells 0 p.1 p.2) (single : items.length = 1 → trailing = true) :
    Spells level (.tuple s (items.map Prod.fst))
      (parenthesized (commas trailing (items.map Prod.snd)))
  | unary {level : Nat} {s : Span} {op : UnaryOp} {e : Expr} {ts : List Token}
    (fits : level ≤ op.level) (h : Spells op.level e ts) :
    Spells level (.unary s op e) (op.token :: ts)
  | binary {level : Nat} {s : Span} {op : BinaryOp} {left right : Expr} {ts us : List Token}
    (fits : level ≤ op.level) (hl : Spells op.leftLevel left ts)
    (hr : Spells (op.level + 1) right us) :
    Spells level (.binary s op left right) (ts ++ op.token :: us)
  | call {level : Nat} {s : Span} {callee : Expr} {ts : List Token}
    {args : List (Argument × List Token)} (trailing : Bool) (hc : Spells calleeLevel callee ts)
    (h : ∀ p ∈ args, Spells 0 p.1.value p.2) :
    Spells level (.call s callee (args.map Prod.fst))
      (ts ++ parenthesized (commas trailing (args.map fun p => p.1.tokens p.2)))
  | method {level : Nat} {s : Span} {receiver : Expr} {name : Name} {ts : List Token}
    {args : List (Argument × List Token)} (trailing : Bool) (hr : Spells fieldLevel receiver ts)
    (h : ∀ p ∈ args, Spells 0 p.1.value p.2) :
    Spells level (.method s receiver name (args.map Prod.fst))
      (ts ++ .dot :: .name name.text ::
        parenthesized (commas trailing (args.map fun p => p.1.tokens p.2)))
  | field {level : Nat} {s : Span} {object : Expr} {name : Name} {ts : List Token}
    (fits : level ≤ fieldLevel) (h : Spells fieldLevel object ts) :
    Spells level (.field s object name) (ts ++ [.dot, .name name.text])
  | index {level : Nat} {s : Span} {object position : Expr} {ts us : List Token}
    (ho : Spells fieldLevel object ts) (hp : Spells 0 position us) :
    Spells level (.index s object position) (ts ++ .leftBracket :: us ++ [.rightBracket])

namespace Spells

variable {level : Nat} {e : Expr} {ts : List Token}

/-- What is tight enough for a place is tight enough where less is asked for. -/
theorem mono (h : Spells level e ts) {looser : Nat} (hle : looser ≤ level) :
    Spells looser e ts := by
  cases h with
  | literal h => exact .literal h
  | group h => exact .group h
  | list trailing h => exact .list trailing h
  | tuple trailing h single => exact .tuple trailing h single
  | unary fits h => exact .unary (Nat.le_trans hle fits) h
  | binary fits hl hr => exact .binary (Nat.le_trans hle fits) hl hr
  | call trailing hc h => exact .call trailing hc h
  | method trailing hr h => exact .method trailing hr h
  | field fits h => exact .field (Nat.le_trans hle fits) h
  | index ho hp => exact .index ho hp

/-- A spelling does not depend on where the expression stands. -/
theorem withSpan (h : Spells level e ts) (place : Span) : Spells level (e.withSpan place) ts := by
  induction h with
  | @literal _ t s _ h =>
    refine .literal (s := place) ?_
    cases t <;> simp only [Token.literal?, Option.some.injEq, reduceCtorEq] at h ⊢ <;>
      rw [← h] <;> rfl
  | group _ ih => exact .group ih
  | list trailing h => exact .list trailing h
  | tuple trailing h single => exact .tuple trailing h single
  | unary fits h => exact .unary fits h
  | binary fits hl hr => exact .binary fits hl hr
  | call trailing hc h => exact .call trailing hc h
  | method trailing hr h => exact .method trailing hr h
  | field fits h => exact .field fits h
  | index ho hp => exact .index ho hp

end Spells

/-- A part of the body of a function. -/
inductive Part where
  | statement (s : Stmt)
  | statements (rest : List Stmt)
  | block (b : Block)
  /-- Branches behind an `if`, and the last block. -/
  | branches (rest : List Branch) (otherwise : Option Block)

/-- The part of a body is written by these tokens. -/
inductive SpellsPart : Part → List Token → Prop where
  | bind {s : Span} {name : Name} {e : Expr} {ts : List Token} (h : Spells 0 e ts) :
    SpellsPart (.statement (.bind s name e))
      (.wordLet :: .name name.text :: .equals :: ts ++ [.semicolon])
  | assign {s : Span} {target value : Expr} {op : AssignOp} {ts us : List Token}
    (ht : Spells 0 target ts) (hv : Spells 0 value us) :
    SpellsPart (.statement (.assign s target op value))
      (ts ++ op.token :: us ++ [.semicolon])
  | expr {s : Span} {e : Expr} {ts : List Token} (h : Spells 0 e ts) :
    SpellsPart (.statement (.expr s e)) (ts ++ [.semicolon])
  | giveNothing {s : Span} :
    SpellsPart (.statement (.giveBack s none)) [.wordReturn, .semicolon]
  | giveBack {s : Span} {e : Expr} {ts : List Token} (h : Spells 0 e ts) :
    SpellsPart (.statement (.giveBack s (some e))) (.wordReturn :: ts ++ [.semicolon])
  | choose {s : Span} {branches : List Branch} {otherwise : Option Block} {ts : List Token}
    (h : SpellsPart (.branches branches otherwise) ts) :
    SpellsPart (.statement (.choose s branches otherwise)) (.wordIf :: ts)
  | loop {s : Span} {var : Name} {e : Expr} {body : Block} {ts us : List Token}
    (he : Spells 0 e ts) (hb : SpellsPart (.block body) us) :
    SpellsPart (.statement (.loop s var e body))
      (.wordFor :: .name var.text :: .wordIn :: ts ++ us)
  | nil : SpellsPart (.statements []) []
  | cons {s : Stmt} {rest : List Stmt} {ts us : List Token} (hs : SpellsPart (.statement s) ts)
    (hr : SpellsPart (.statements rest) us) : SpellsPart (.statements (s :: rest)) (ts ++ us)
  | block {s : Span} {statements : List Stmt} {ts : List Token}
    (h : SpellsPart (.statements statements) ts) :
    SpellsPart (.block (.mk s statements)) (.leftBrace :: ts ++ [.rightBrace])
  | last {condition : Expr} {body : Block} {ts us : List Token} (hc : Spells 0 condition ts)
    (hb : SpellsPart (.block body) us) :
    SpellsPart (.branches [.mk condition body] none) (ts ++ us)
  | otherwise {condition : Expr} {body other : Block} {ts us vs : List Token}
    (hc : Spells 0 condition ts) (hb : SpellsPart (.block body) us)
    (ho : SpellsPart (.block other) vs) :
    SpellsPart (.branches [.mk condition body] (some other)) (ts ++ us ++ .wordElse :: vs)
  | branch {condition : Expr} {body : Block} {rest : List Branch} {otherwise : Option Block}
    {ts us vs : List Token} (hc : Spells 0 condition ts) (hb : SpellsPart (.block body) us)
    (hr : SpellsPart (.branches rest otherwise) vs) :
    SpellsPart (.branches (.mk condition body :: rest) otherwise)
      (ts ++ us ++ .wordElse :: .wordIf :: vs)

/-- The definition is written by these tokens. -/
inductive SpellsItem : Item → List Token → Prop where
  | function {f : Function} {ts : List Token} (trailing : Bool)
    (h : SpellsPart (.block f.body) ts) :
    SpellsItem (.function f) (headerTokens trailing f.name f.params ++ ts)
  | constant {name : Name} {e : Expr} {ts : List Token} (h : Spells 0 e ts) :
    SpellsItem (.constant name e) (.wordLet :: .name name.text :: .equals :: ts ++ [.semicolon])

/-- The definitions are written by these tokens. -/
inductive SpellsItems : List Item → List Token → Prop where
  | nil : SpellsItems [] []
  | cons {item : Item} {rest : List Item} {ts us : List Token} (hi : SpellsItem item ts)
    (hr : SpellsItems rest us) : SpellsItems (item :: rest) (ts ++ us)

/-- The script is written by these tokens. -/
def Program.SpelledBy (p : Program) (ts : List Token) : Prop := SpellsItems p.items ts

end LandPattern.Script
