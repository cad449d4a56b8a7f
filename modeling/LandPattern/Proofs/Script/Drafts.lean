import LandPattern.Proofs.Script.Reading

/-!
# What a draft has read

Between two tokens, a draft holds exactly what the tokens before it spell: finished parts by their
spellings, and everything that is still open by the tokens that opened it. Operators that wait bind
tighter the later they came, which is why completing them never needs a parenthesis.
-/

namespace LandPattern.Script

/-- What a call needs before its arguments is written by these tokens. -/
def Head.SpelledBy (head : Head) (ts : List Token) : Prop :=
  match head with
  | .call callee => Spells calleeLevel callee ts
  | .method receiver name =>
    ∃ us, ts = us ++ [.dot, .name name.text] ∧ Spells fieldLevel receiver us

/-- The tokens of a keyword that waits for its value. -/
def keywordTokens : Option Name → List Token
  | none => []
  | some name => [.name name.text, .equals]

/-- What waits for an expression was opened by these tokens. -/
inductive StackSpells : List Wait → List Token → Prop where
  | nil : StackSpells [] []
  | unary {op : UnaryOp} {s : Span} {outer : List Wait} {ts : List Token}
    (h : StackSpells outer ts) (fits : need outer ≤ op.level) :
    StackSpells (.unary op s :: outer) (ts ++ [op.token])
  | binary {op : BinaryOp} {left : Expr} {outer : List Wait} {ts us : List Token}
    (h : StackSpells outer ts) (fits : need outer ≤ op.level) (hl : Spells op.leftLevel left us) :
    StackSpells (.binary op left :: outer) (ts ++ us ++ [op.token])
  | group {s : Span} {done : List Expr} {outer : List Wait} {ts : List Token}
    {items : List (Expr × List Token)} (h : StackSpells outer ts)
    (hd : done.reverse = items.map Prod.fst) (hi : ∀ p ∈ items, Spells 0 p.1 p.2) :
    StackSpells (.group s done :: outer) (ts ++ .leftParen :: followed (items.map Prod.snd))
  | list {s : Span} {done : List Expr} {outer : List Wait} {ts : List Token}
    {items : List (Expr × List Token)} (h : StackSpells outer ts)
    (hd : done.reverse = items.map Prod.fst) (hi : ∀ p ∈ items, Spells 0 p.1 p.2) :
    StackSpells (.list s done :: outer) (ts ++ .leftBracket :: followed (items.map Prod.snd))
  | arguments {head : Head} {done : List Argument} {keyword : Option Name} {outer : List Wait}
    {ts us : List Token} {args : List (Argument × List Token)} (h : StackSpells outer ts)
    (hh : head.SpelledBy us) (hd : done.reverse = args.map Prod.fst)
    (hi : ∀ p ∈ args, Spells 0 p.1.value p.2) :
    StackSpells (.arguments head done keyword :: outer)
      (ts ++ us ++ .leftParen :: followed (args.map fun p => p.1.tokens p.2) ++
        keywordTokens keyword)
  | index {object : Expr} {outer : List Wait} {ts us : List Token} (h : StackSpells outer ts)
    (ho : Spells fieldLevel object us) :
    StackSpells (.index object :: outer) (ts ++ us ++ [.leftBracket])

/-- A parenthesis that was just opened waits for the first item of a group. -/
theorem StackSpells.openGroup {outer : List Wait} {ts : List Token} (h : StackSpells outer ts)
    (s : Span) : StackSpells (.group s [] :: outer) (ts ++ [.leftParen]) := by
  have hitems : ∀ p ∈ ([] : List (Expr × List Token)), Spells 0 p.1 p.2 := by simp
  exact .group h rfl hitems

/-- A bracket that was just opened waits for the first item of a list. -/
theorem StackSpells.openList {outer : List Wait} {ts : List Token} (h : StackSpells outer ts)
    (s : Span) : StackSpells (.list s [] :: outer) (ts ++ [.leftBracket]) := by
  have hitems : ∀ p ∈ ([] : List (Expr × List Token)), Spells 0 p.1 p.2 := by simp
  exact .list h rfl hitems

/-- A parenthesis behind what is called waits for the first argument. -/
theorem StackSpells.openArguments {head : Head} {outer : List Wait} {ts us : List Token}
    (h : StackSpells outer ts) (hh : head.SpelledBy us) :
    StackSpells (.arguments head [] none :: outer) (ts ++ us ++ [.leftParen]) := by
  have hargs : ∀ p ∈ ([] : List (Argument × List Token)), Spells 0 p.1.value p.2 := by simp
  have hall : StackSpells (.arguments head [] none :: outer) _ := .arguments h hh rfl hargs
  simpa [followed, keywordTokens] using hall

/-- Finished branches in reverse, each of them with an `else if` behind it. -/
inductive SpellsLeading : List Branch → List Token → Prop where
  | nil : SpellsLeading [] []
  | cons {condition : Expr} {body : Block} {done : List Branch} {ts us vs : List Token}
    (h : SpellsLeading done ts) (hc : Spells 0 condition us) (hb : SpellsPart (.block body) vs) :
    SpellsLeading (.mk condition body :: done) (ts ++ us ++ vs ++ [.wordElse, .wordIf])

/-- Finished branches in reverse, with nothing behind the last of them. -/
inductive SpellsBranches : List Branch → List Token → Prop where
  | mk {condition : Expr} {body : Block} {done : List Branch} {ts us vs : List Token}
    (h : SpellsLeading done ts) (hc : Spells 0 condition us) (hb : SpellsPart (.block body) vs) :
    SpellsBranches (.mk condition body :: done) (ts ++ us ++ vs)

mutual

/-- The open block, with all blocks around it, was begun by these tokens. -/
def OpenBlock.SpelledBy (block : OpenBlock) (ts : List Token) : Prop :=
  match block with
  | .mk purpose _ done => ∃ us vs, ts = us ++ .leftBrace :: vs ∧ purpose.SpelledBy us ∧
      SpellsPart (.statements done.reverse) vs
termination_by structural block

/-- What a block is the body of was begun by these tokens. -/
def Purpose.SpelledBy (purpose : Purpose) (ts : List Token) : Prop :=
  match purpose with
  | .function _ name params => ∃ trailing, ts = headerTokens trailing name params
  | .branch outer _ done condition => ∃ us vs ws, ts = us ++ .wordIf :: vs ++ ws ∧
      outer.SpelledBy us ∧ SpellsLeading done vs ∧ Spells 0 condition ws
  | .otherwise outer _ done => ∃ us vs, ts = us ++ .wordIf :: vs ++ [.wordElse] ∧
      outer.SpelledBy us ∧ SpellsBranches done vs
  | .loop outer _ var iterable => ∃ us vs,
      ts = us ++ .wordFor :: .name var.text :: .wordIn :: vs ∧ outer.SpelledBy us ∧
        Spells 0 iterable vs
termination_by structural purpose

end

/-- What an expression is a part of was begun by these tokens. -/
def Slot.SpelledBy (slot : Slot) (ts : List Token) : Prop :=
  match slot with
  | .constant name => ts = [.wordLet, .name name.text, .equals]
  | .bind block _ name => ∃ us, ts = us ++ [.wordLet, .name name.text, .equals] ∧
      block.SpelledBy us
  | .giveBack block _ => ∃ us, ts = us ++ [.wordReturn] ∧ block.SpelledBy us
  | .bare block => block.SpelledBy ts
  | .assign block target op => ∃ us vs, ts = us ++ vs ++ [op.token] ∧ block.SpelledBy us ∧
      Spells 0 target vs
  | .condition block _ done => ∃ us vs, ts = us ++ .wordIf :: vs ∧ block.SpelledBy us ∧
      SpellsLeading done vs
  | .iterable block _ var => ∃ us, ts = us ++ [.wordFor, .name var.text, .wordIn] ∧
      block.SpelledBy us

/-- The parameters of a function in reverse, as rows of tokens in order. -/
def paramRows (done : List Name) : List (List Token) :=
  done.reverse.map fun param => [.name param.text]

/-- The definition being read was begun by these tokens. -/
def Point.SpelledBy (point : Point) (ts : List Token) : Prop :=
  match point with
  | .item => ts = []
  | .functionName _ => ts = [.wordFn]
  | .functionParams _ name => ts = [.wordFn, .name name.text]
  | .param _ name done =>
    ts = .wordFn :: .name name.text :: .leftParen :: followed (paramRows done)
  | .afterParam _ name done => ∃ param rest, done = param :: rest ∧
      ts = .wordFn :: .name name.text :: .leftParen ::
        followed (paramRows rest) ++ [.name param.text]
  | .constantName => ts = [.wordLet]
  | .constantEquals name => ts = [.wordLet, .name name.text]
  | .block purpose => purpose.SpelledBy ts
  | .statement outer => outer.SpelledBy ts
  | .bindName outer _ => ∃ us, ts = us ++ [.wordLet] ∧ outer.SpelledBy us
  | .bindEquals outer _ name => ∃ us, ts = us ++ [.wordLet, .name name.text] ∧ outer.SpelledBy us
  | .loopName outer _ => ∃ us, ts = us ++ [.wordFor] ∧ outer.SpelledBy us
  | .loopIn outer _ var => ∃ us, ts = us ++ [.wordFor, .name var.text] ∧ outer.SpelledBy us
  | .afterBranch outer _ done _ => ∃ us vs, ts = us ++ .wordIf :: vs ∧ outer.SpelledBy us ∧
      SpellsBranches done vs
  | .afterElse outer _ done => ∃ us vs, ts = us ++ .wordIf :: vs ++ [.wordElse] ∧
      outer.SpelledBy us ∧ SpellsBranches done vs
  | .operand slot stack => ∃ us vs, ts = us ++ vs ∧ slot.SpelledBy us ∧ StackSpells stack vs
  | .argumentName slot stack name => ∃ us vs, ts = us ++ vs ++ [.name name.text] ∧
      slot.SpelledBy us ∧ StackSpells stack vs
  | .operator slot stack e => ∃ us vs ws, ts = us ++ vs ++ ws ∧ slot.SpelledBy us ∧
      StackSpells stack vs ∧ Spells calleeLevel e ws
  | .fieldName slot stack object => ∃ us vs ws, ts = us ++ vs ++ ws ++ [.dot] ∧
      slot.SpelledBy us ∧ StackSpells stack vs ∧ Spells fieldLevel object ws
  | .afterField slot stack object name => ∃ us vs ws,
      ts = us ++ vs ++ ws ++ [.dot, .name name.text] ∧ slot.SpelledBy us ∧
        StackSpells stack vs ∧ Spells fieldLevel object ws

/-- The draft was read from these tokens. -/
def Draft.SpelledBy (d : Draft) (ts : List Token) : Prop :=
  ∃ us vs, ts = us ++ vs ∧ SpellsItems d.items.reverse us ∧ d.point.SpelledBy vs

theorem SpellsItems.append_singleton {items : List Item} {item : Item} {ts us : List Token}
    (h : SpellsItems items ts) (hi : SpellsItem item us) :
    SpellsItems (items ++ [item]) (ts ++ us) := by
  induction h with
  | nil => simpa using SpellsItems.cons hi .nil
  | cons hfirst _ ih =>
    rw [List.cons_append, List.append_assoc]
    exact .cons hfirst ih

theorem SpellsPart.append_singleton {done : List Stmt} {s : Stmt} {ts us : List Token}
    (h : SpellsPart (.statements done) ts) (hs : SpellsPart (.statement s) us) :
    SpellsPart (.statements (done ++ [s])) (ts ++ us) := by
  generalize hp : Part.statements done = part at h
  induction h generalizing done with
  | nil =>
    cases hp
    simpa using SpellsPart.cons hs .nil
  | cons hfirst _ _ ih =>
    cases hp
    rw [List.cons_append, List.append_assoc]
    exact .cons hfirst (ih rfl)
  | _ => cases hp

theorem OpenBlock.SpelledBy.push {block : OpenBlock} {s : Stmt} {ts us : List Token}
    (h : block.SpelledBy ts) (hs : SpellsPart (.statement s) us) :
    (block.push s).SpelledBy (ts ++ us) := by
  obtain ⟨purpose, start, done⟩ := block
  obtain ⟨xs, ys, rfl, hp, hd⟩ := h
  refine ⟨xs, ys ++ us, by simp, hp, ?_⟩
  rw [List.reverse_cons]
  exact hd.append_singleton hs

/-- Branches that are read one after the other make up the choice. -/
theorem SpellsLeading.branches {done rest : List Branch} {otherwise : Option Block}
    {ts us : List Token} (h : SpellsLeading done ts)
    (hr : SpellsPart (.branches rest otherwise) us) :
    SpellsPart (.branches (done.reverse ++ rest) otherwise) (ts ++ us) := by
  induction h generalizing rest us with
  | nil => exact hr
  | cons _ hc hb ih =>
    have hall := ih (.branch hc hb hr)
    simpa using hall

theorem SpellsBranches.closed {done : List Branch} {ts : List Token} (h : SpellsBranches done ts) :
    SpellsPart (.branches done.reverse none) ts := by
  obtain ⟨h, hc, hb⟩ := h
  have hall := h.branches (.last hc hb)
  simpa using hall

theorem SpellsBranches.otherwise {done : List Branch} {body : Block} {ts us : List Token}
    (h : SpellsBranches done ts) (ho : SpellsPart (.block body) us) :
    SpellsPart (.branches done.reverse (some body)) (ts ++ .wordElse :: us) := by
  obtain ⟨h, hc, hb⟩ := h
  have hall := h.branches (.otherwise hc hb ho)
  simpa using hall

theorem SpellsBranches.leading {done : List Branch} {ts : List Token} (h : SpellsBranches done ts) :
    SpellsLeading done (ts ++ [.wordElse, .wordIf]) := by
  obtain ⟨h, hc, hb⟩ := h
  exact .cons h hc hb

/-- The operator that waits first binds less tight than `level`. -/
def Below (level : Nat) : List Wait → Prop
  | .unary op _ :: _ => op.level < level
  | .binary op _ :: _ => op.level < level
  | _ => True

/-- Completing operators regroups the tokens and loses none of them. -/
theorem StackSpells.settle {stack : List Wait} {e : Expr} {ts us : List Token} {level k : Nat}
    (h : StackSpells stack ts) (he : Spells level e us) (hn : need stack ≤ level) (hk : k ≤ level) :
    ∃ vs ws, ts ++ us = vs ++ ws ∧ StackSpells (settle k stack e).1 vs ∧
      Below k (settle k stack e).1 ∧ Spells k (settle k stack e).2 ws := by
  induction h generalizing e us level with
  | nil => exact ⟨[], us, rfl, .nil, trivial, he.mono hk⟩
  | @unary op s outer ts h fits ih =>
    by_cases hle : k ≤ op.level
    · rw [Script.settle, if_pos hle]
      obtain ⟨vs, ws, heq, hv, hb, hw⟩ :=
        ih (.unary (Nat.le_refl _) (he.mono hn)) fits hle
      exact ⟨vs, ws, by simpa using heq, hv, hb, hw⟩
    · rw [Script.settle, if_neg hle]
      exact ⟨_, us, rfl, .unary h fits, Nat.lt_of_not_le hle, he.mono hk⟩
  | @binary op left outer ts vs h fits hl ih =>
    by_cases hle : k ≤ op.level
    · rw [Script.settle, if_pos hle]
      obtain ⟨xs, ws, heq, hv, hb, hw⟩ :=
        ih (.binary (Nat.le_refl _) hl (he.mono hn)) fits hle
      exact ⟨xs, ws, by simpa using heq, hv, hb, hw⟩
    · rw [Script.settle, if_neg hle]
      exact ⟨_, us, rfl, .binary h fits hl, Nat.lt_of_not_le hle, he.mono hk⟩
  | group h hd hi => exact ⟨_, us, rfl, .group h hd hi, trivial, he.mono hk⟩
  | list h hd hi => exact ⟨_, us, rfl, .list h hd hi, trivial, he.mono hk⟩
  | arguments h hh hd hi => exact ⟨_, us, rfl, .arguments h hh hd hi, trivial, he.mono hk⟩
  | index h ho => exact ⟨_, us, rfl, .index h ho, trivial, he.mono hk⟩

end LandPattern.Script
