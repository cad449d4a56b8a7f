import LandPattern.Proofs.Script.Drafts
import LandPattern.Proofs.Script.Moves

/-!
# What the reader accepts

One token more leaves a draft that holds exactly what the tokens up to it spell. A script that is
accepted is therefore spelled by its tokens: the reader adds nothing to what is written, and drops
nothing of it but parentheses and commas at the end of a list.
-/

namespace LandPattern.Script

variable {items : List Item} {slot : Slot} {stack : List Wait} {t : Placed} {next : Draft}
  {is ss ws es : List Token}

/-- A draft between two parts of an expression that needs an operand. -/
theorem Draft.SpelledBy.operand (hi : SpellsItems items.reverse is) (hs : slot.SpelledBy ss)
    (hw : StackSpells stack ws) :
    (⟨items, .operand slot stack⟩ : Draft).SpelledBy (is ++ (ss ++ ws)) :=
  ⟨is, ss ++ ws, rfl, hi, ss, ws, rfl, hs, hw⟩

/-- A draft before an expression that stands in no bracket. -/
theorem Draft.SpelledBy.begin (hi : SpellsItems items.reverse is) (hs : slot.SpelledBy ss) :
    (⟨items, .operand slot []⟩ : Draft).SpelledBy (is ++ ss) :=
  ⟨is, ss, rfl, hi, ss, [], by simp, hs, .nil⟩

/-- A draft behind the opening brace of a block. -/
theorem Draft.SpelledBy.openBlock {purpose : Purpose} {ps : List Token} (span : Span)
    (hi : SpellsItems items.reverse is) (hp : purpose.SpelledBy ps) :
    (⟨items, .statement (.mk purpose span [])⟩ : Draft).SpelledBy (is ++ ps ++ [.leftBrace]) :=
  ⟨is, ps ++ [.leftBrace], by simp, hi, ps, [], rfl, hp, .nil⟩

/-- A draft behind an operand. -/
theorem Draft.SpelledBy.operator {e : Expr} (hi : SpellsItems items.reverse is)
    (hs : slot.SpelledBy ss) (hw : StackSpells stack ws) (he : Spells calleeLevel e es) :
    (⟨items, .operator slot stack e⟩ : Draft).SpelledBy (is ++ (ss ++ ws ++ es)) :=
  ⟨is, ss ++ ws ++ es, rfl, hi, ss, ws, es, rfl, hs, hw, he⟩

/-- Arguments and the parenthesis behind them make a call of what stands before them. -/
theorem Head.SpelledBy.apply {head : Head} {us : List Token} (h : head.SpelledBy us)
    {args : List (Argument × List Token)} (hi : ∀ p ∈ args, Spells 0 p.1.value p.2)
    (trailing : Bool) (close : Span) :
    Spells calleeLevel (head.apply (args.map Prod.fst) close)
      (us ++ parenthesized (commas trailing (args.map fun p => p.1.tokens p.2))) := by
  cases head with
  | call callee => exact .call trailing h hi
  | method receiver name =>
    obtain ⟨vs, rfl, hr⟩ := h
    rw [List.append_assoc]
    exact .method trailing hr hi

/-- A bracket that closes where an item could have come ends a list with a comma behind its last
item, or an empty one. -/
theorem EmptyMove.spelled (h : EmptyMove items slot stack t next) (hi : SpellsItems items.reverse is)
    (hslot : slot.SpelledBy ss) (hw : StackSpells stack ws) :
    next.SpelledBy (is ++ (ss ++ ws) ++ [t.token]) := by
  cases h with
  | @tuple slot start done outer close =>
    cases hw with
    | @group _ _ _ vs pairs h hd hp =>
      have he : Spells calleeLevel (.tuple (start.cover close) (pairs.map Prod.fst)) _ :=
        .tuple true hp fun _ => rfl
      have hnext := Draft.SpelledBy.operator hi hslot h he
      rw [← hd, commas_true] at hnext
      simpa [parenthesized] using hnext
  | @list slot start done outer close =>
    cases hw with
    | @list _ _ _ vs pairs h hd hp =>
      have he : Spells calleeLevel (.list (start.cover close) (pairs.map Prod.fst)) _ :=
        .list true hp
      have hnext := Draft.SpelledBy.operator hi hslot h he
      rw [← hd, commas_true] at hnext
      simpa using hnext
  | @call slot head done outer close =>
    cases hw with
    | @arguments _ _ _ _ vs us pairs h hh hd hp =>
      have hnext := Draft.SpelledBy.operator hi hslot h (hh.apply hp true close)
      rw [← hd, commas_true] at hnext
      simpa [parenthesized, keywordTokens] using hnext
  | giveNothing =>
    cases hw
    obtain ⟨us, rfl, hb⟩ := hslot
    refine ⟨is, _, ?_, hi, hb.push .giveNothing⟩
    simp

/-- Where `not` may stand, it is not tighter than its place asks for. -/
theorem need_le_of_allowsNot (h : allowsNot stack = true) : need stack ≤ UnaryOp.not.level := by
  unfold allowsNot at h
  split at h
  · simpa [need] using h
  · rename_i op _ _
    simp only [decide_eq_true_eq] at h
    cases op <;> simp [BinaryOp.level, UnaryOp.level, need] at h ⊢
  · unfold need
    split <;> simp_all

/-- A token before an operand opens something or is an operand itself. -/
theorem OperandMove.spelled (h : OperandMove items slot stack t next)
    (hi : SpellsItems items.reverse is) (hslot : slot.SpelledBy ss) (hw : StackSpells stack ws) :
    next.SpelledBy (is ++ (ss ++ ws) ++ [t.token]) := by
  cases h with
  | @not stack span hallowed =>
    have hnext := Draft.SpelledBy.operand hi hslot
      (hw.unary (s := span) (need_le_of_allowsNot hallowed))
    simpa [UnaryOp.token] using hnext
  | @neg stack span =>
    have hwait : StackSpells (.unary .neg span :: stack) (ws ++ [UnaryOp.neg.token]) :=
      hw.unary (need_le stack)
    have hnext := Draft.SpelledBy.operand hi hslot hwait
    simpa [UnaryOp.token] using hnext
  | @group stack span =>
    have hnext := Draft.SpelledBy.operand hi hslot (hw.openGroup span)
    simpa using hnext
  | @list stack span =>
    have hnext := Draft.SpelledBy.operand hi hslot (hw.openList span)
    simpa using hnext
  | @argumentName head done outer text span =>
    exact ⟨is, ss ++ ws ++ [.name text], by simp, hi, ss, ws, rfl, hslot, hw⟩
  | literal he =>
    have hnext := Draft.SpelledBy.operator hi hslot hw (.literal he)
    simpa using hnext
  | empty h => exact h.spelled hi hslot hw

/-- The operators that go on waiting leave a place for this one. -/
theorem need_le_of_below {op : BinaryOp} (h : Below op.leftLevel stack)
    (hb : op.level = comparisonLevel → ∀ other left outer, stack = .binary other left :: outer →
      other.level ≠ comparisonLevel) : need stack ≤ op.level := by
  cases stack with
  | nil => exact Nat.zero_le _
  | cons w outer =>
    cases w with
    | unary other s =>
      have hlt : other.level < op.leftLevel := h
      have hle : op.leftLevel ≤ op.level + 1 := by
        unfold BinaryOp.leftLevel
        split <;> omega
      exact Nat.le_of_lt_succ (Nat.lt_of_lt_of_le hlt hle)
    | binary other left =>
      have hlt : other.level < op.leftLevel := h
      show other.level + 1 ≤ op.level
      by_cases hc : op.level = comparisonLevel
      · have hne := hb hc other left outer rfl
        rw [BinaryOp.leftLevel, if_pos hc] at hlt
        omega
      · rw [BinaryOp.leftLevel, if_neg hc] at hlt
        exact hlt
    | _ => exact Nat.zero_le _

/-- Finished items with one more behind them, in reverse. -/
theorem reverse_cons_eq_map {α β : Type} {f : β → α} {done : List α} {pairs : List β}
    (hd : done.reverse = pairs.map f) (pair : β) :
    (f pair :: done).reverse = (pairs ++ [pair]).map f := by
  rw [List.reverse_cons, hd, List.map_append, List.map_singleton]

/-- What holds of the finished items and of one more holds of all of them. -/
theorem forall_mem_append_singleton {α : Type} {property : α → Prop} {done : List α} {one : α}
    (hd : ∀ x ∈ done, property x) (ho : property one) : ∀ x ∈ done ++ [one], property x := by
  intro x hx
  rcases List.mem_append.mp hx with hx | hx
  · exact hd x hx
  · rw [List.mem_singleton.mp hx]
    exact ho

/-- The argument whose value has been read, with the tokens of its keyword. -/
theorem tokens_argument (keyword : Option Name) (e : Expr) (es : List Token) :
    (stepBracket.argument e keyword).value = e ∧
      (stepBracket.argument e keyword).tokens es = keywordTokens keyword ++ es := by
  cases keyword with
  | none => exact ⟨rfl, rfl⟩
  | some name => exact ⟨rfl, rfl⟩

/-- A comma or a closing bracket behind a finished expression makes it an item of the bracket
around it. -/
theorem BracketMove.spelled {e : Expr} (h : BracketMove items slot e stack t next)
    (hi : SpellsItems items.reverse is) (hslot : slot.SpelledBy ss) (hw : StackSpells stack ws)
    (he : Spells 0 e es) : next.SpelledBy (is ++ (ss ++ ws ++ es) ++ [t.token]) := by
  cases h with
  | @nextInGroup start done outer span =>
    cases hw with
    | @group _ _ _ vs pairs h hd hp =>
      have hnext := Draft.SpelledBy.operand hi hslot (h.group (s := start)
        (reverse_cons_eq_map hd (e, es)) (forall_mem_append_singleton hp he))
      simpa [followed_append_singleton] using hnext
  | @nextInList start done outer span =>
    cases hw with
    | @list _ _ _ vs pairs h hd hp =>
      have hnext := Draft.SpelledBy.operand hi hslot (h.list (s := start)
        (reverse_cons_eq_map hd (e, es)) (forall_mem_append_singleton hp he))
      simpa [followed_append_singleton] using hnext
  | @nextArgument head done keyword outer span =>
    obtain ⟨hvalue, htokens⟩ := tokens_argument keyword e es
    cases hw with
    | @arguments _ _ _ _ vs us pairs h hh hd hp =>
      have hwait : StackSpells
          (.arguments head (stepBracket.argument e keyword :: done) none :: outer) _ :=
        h.arguments hh (reverse_cons_eq_map hd (stepBracket.argument e keyword, es))
          (forall_mem_append_singleton hp (by simpa only [hvalue] using he))
      have hnext := Draft.SpelledBy.operand hi hslot hwait
      simpa [followed_append_singleton, htokens, keywordTokens] using hnext
  | @group start outer close =>
    cases hw with
    | @group _ _ _ vs pairs h hd hp =>
      have hempty : pairs = [] := by simpa using hd.symm
      have hnext := Draft.SpelledBy.operator hi hslot h
        (Spells.group (he.withSpan (start.cover close)))
      simpa [parenthesized, hempty, followed] using hnext
  | @tuple start done outer close hmore =>
    cases hw with
    | @group _ _ _ vs pairs h hd hp =>
      have hne : pairs ≠ [] := by
        rintro rfl
        exact hmore (by simpa using hd)
      have htuple : Spells calleeLevel
          (.tuple (start.cover close) ((pairs ++ [(e, es)]).map Prod.fst)) _ :=
        .tuple false (forall_mem_append_singleton hp he) fun hl => by
          simp [hne] at hl
      rw [← reverse_cons_eq_map hd (e, es), List.map_append, List.map_singleton,
        commas_append_singleton] at htuple
      have hnext := Draft.SpelledBy.operator hi hslot h htuple
      simpa [parenthesized] using hnext
  | @list start done outer close =>
    cases hw with
    | @list _ _ _ vs pairs h hd hp =>
      have hlist : Spells calleeLevel
          (.list (start.cover close) ((pairs ++ [(e, es)]).map Prod.fst)) _ :=
        .list false (forall_mem_append_singleton hp he)
      rw [← reverse_cons_eq_map hd (e, es), List.map_append, List.map_singleton,
        commas_append_singleton] at hlist
      have hnext := Draft.SpelledBy.operator hi hslot h hlist
      simpa using hnext
  | @call head done keyword outer close =>
    obtain ⟨hvalue, htokens⟩ := tokens_argument keyword e es
    cases hw with
    | @arguments _ _ _ _ vs us pairs h hh hd hp =>
      have hargs : ∀ p ∈ pairs ++ [(stepBracket.argument e keyword, es)],
          Spells 0 p.1.value p.2 :=
        forall_mem_append_singleton hp (by simpa only [hvalue] using he)
      have hcall := hh.apply hargs false close
      rw [← reverse_cons_eq_map hd (stepBracket.argument e keyword, es), List.map_append,
        List.map_singleton, commas_append_singleton, htokens] at hcall
      have hnext := Draft.SpelledBy.operator hi hslot h hcall
      simpa [parenthesized] using hnext
  | @index object outer close =>
    cases hw with
    | index h ho =>
      have hnext := Draft.SpelledBy.operator hi hslot h
        (Spells.index (s := object.span.cover close) ho he)
      simpa using hnext

/-- A semicolon behind the last expression of a statement ends the statement. -/
theorem Slot.SpelledBy.finish {e : Expr} {close : Span} (hi : SpellsItems items.reverse is)
    (hslot : slot.SpelledBy ss) (he : Spells 0 e es)
    (hs : slot.finish? items e close = some next) :
    next.SpelledBy (is ++ (ss ++ es) ++ [.semicolon]) := by
  cases slot with
  | constant name =>
    cases hs
    have hss : ss = [.wordLet, .name name.text, .equals] := hslot
    refine ⟨is ++ (ss ++ es) ++ [.semicolon], [], by simp, ?_, rfl⟩
    rw [List.reverse_cons]
    have hitem : SpellsItem (.constant name e) _ := .constant he
    have hall := hi.append_singleton hitem
    simpa [hss] using hall
  | bind block start name =>
    cases hs
    obtain ⟨us, rfl, hb⟩ := hslot
    refine ⟨is, _, ?_, hi, hb.push (.bind he)⟩
    simp
  | giveBack block start =>
    cases hs
    obtain ⟨us, rfl, hb⟩ := hslot
    refine ⟨is, _, ?_, hi, hb.push (.giveBack he)⟩
    simp
  | bare block =>
    cases hs
    refine ⟨is, _, ?_, hi, OpenBlock.SpelledBy.push hslot (.expr he)⟩
    simp
  | assign block target op =>
    cases hs
    obtain ⟨us, vs, rfl, hb, hv⟩ := hslot
    refine ⟨is, _, ?_, hi, hb.push (.assign hv he)⟩
    simp
  | condition block start done | iterable block start var => cases hs

/-- A token that ends an expression outside all brackets ends a statement or its first part. -/
theorem EndMove.spelled {e : Expr} (h : EndMove items e slot t next)
    (hi : SpellsItems items.reverse is) (hslot : slot.SpelledBy ss) (he : Spells 0 e es) :
    next.SpelledBy (is ++ (ss ++ es) ++ [t.token]) := by
  cases h with
  | finish hs => exact hslot.finish hi he hs
  | @branch block start done span =>
    obtain ⟨us, vs, rfl, hb, hd⟩ := hslot
    exact .openBlock span hi ⟨us, vs, es, rfl, hb, hd, he⟩
  | @loop block start var span =>
    obtain ⟨us, rfl, hb⟩ := hslot
    have hpurpose : (Purpose.loop block start var e).SpelledBy
        (us ++ .wordFor :: .name var.text :: .wordIn :: es) := ⟨us, es, rfl, hb, he⟩
    have hnext := Draft.SpelledBy.openBlock span hi hpurpose
    simpa using hnext
  | @assign block t op hop =>
    have hassign : (Slot.assign block e op).SpelledBy (ss ++ es ++ [op.token]) :=
      ⟨ss, es, rfl, hslot, he⟩
    have hnext := Draft.SpelledBy.begin hi hassign
    simpa [AssignOp.token_of_assignOp? hop] using hnext

/-- A token behind an operand goes on with the operand, or completes what waits for it. -/
theorem OperatorMove.spelled {e : Expr} {level : Nat} (h : OperatorMove items slot stack e t next)
    (hi : SpellsItems items.reverse is) (hslot : slot.SpelledBy ss) (hw : StackSpells stack ws)
    (he : Spells level e es) (hl : fieldLevel ≤ level)
    (hc : t.token = .leftParen → calleeLevel ≤ level) :
    next.SpelledBy (is ++ (ss ++ ws ++ es) ++ [t.token]) := by
  have hneed : need stack ≤ level := Nat.le_trans (need_le_fieldLevel stack) hl
  have hsettled := hw.settle (k := 0) he hneed (Nat.zero_le level)
  cases h with
  | dot =>
    exact ⟨is, ss ++ ws ++ es ++ [.dot], by simp, hi, ss, ws, es, rfl, hslot, hw, he.mono hl⟩
  | call =>
    have hhead : (Head.call e).SpelledBy es := he.mono (hc rfl)
    have hnext := Draft.SpelledBy.operand hi hslot (hw.openArguments hhead)
    simpa using hnext
  | index =>
    have hnext := Draft.SpelledBy.operand hi hslot (hw.index (he.mono hl))
    simpa using hnext
  | @binary t op hop hbeside =>
    have hle : op.leftLevel ≤ level := by
      refine Nat.le_trans ?_ hl
      cases op <;> decide
    obtain ⟨vs, us, heq, hv, hb, hu⟩ := hw.settle he hneed hle
    have hnext := Draft.SpelledBy.operand hi hslot (hv.binary (need_le_of_below hb hbeside) hu)
    rw [BinaryOp.token_of_binaryOp? hop, List.append_assoc ss, heq]
    simpa using hnext
  | ends hempty hend =>
    obtain ⟨vs, us, heq, hv, -, hu⟩ := hsettled
    rw [hempty] at hv
    cases hv
    rw [List.append_assoc ss, heq]
    exact hend.spelled hi hslot hu
  | bracket hbracket =>
    obtain ⟨vs, us, heq, hv, -, hu⟩ := hsettled
    rw [List.append_assoc ss, heq, ← List.append_assoc ss]
    exact hbracket.spelled hi hslot hv hu

/-- The closing brace of a block ends what the block is the body of. -/
theorem OpenBlock.SpelledBy.finish {block : OpenBlock} {bs : List Token} (close : Span)
    (hi : SpellsItems items.reverse is) (hb : block.SpelledBy bs) :
    (block.finish items close).SpelledBy (is ++ bs ++ [.rightBrace]) := by
  obtain ⟨purpose, start, done⟩ := block
  obtain ⟨us, vs, rfl, hp, hd⟩ := hb
  have hbody : SpellsPart (.block (.mk (start.cover close) done.reverse))
      (.leftBrace :: vs ++ [.rightBrace]) := .block hd
  cases purpose with
  | function first name params =>
    obtain ⟨trailing, rfl⟩ := hp
    refine ⟨is ++ (headerTokens trailing name params ++ .leftBrace :: vs ++ [.rightBrace]), [],
      by simp, ?_, rfl⟩
    rw [OpenBlock.finish, List.reverse_cons]
    have hitem := SpellsItem.function trailing (f := ⟨name, params, _,
      first.cover (start.cover close)⟩) hbody
    have hall := hi.append_singleton hitem
    simpa using hall
  | branch outer first branches condition =>
    obtain ⟨xs, ys, zs, rfl, ho, hl, hc⟩ := hp
    refine ⟨is, xs ++ .wordIf :: (ys ++ zs ++ (.leftBrace :: vs ++ [.rightBrace])), by simp, hi,
      xs, _, rfl, ho, .mk hl hc hbody⟩
  | otherwise outer first branches =>
    obtain ⟨xs, ys, rfl, ho, hl⟩ := hp
    refine ⟨is, _, ?_, hi, ho.push (.choose (hl.otherwise hbody))⟩
    simp
  | loop outer first var iterable =>
    obtain ⟨xs, ys, rfl, ho, he⟩ := hp
    have hloop : SpellsPart (.statement (.loop (first.cover (start.cover close)) var iterable _)) _ :=
      .loop he hbody
    refine ⟨is, _, ?_, hi, ho.push hloop⟩
    simp

/-- A token before a statement begins it or ends the block. -/
theorem StatementMove.spelled {block : OpenBlock} {bs : List Token}
    (h : StatementMove items block t next) (hi : SpellsItems items.reverse is)
    (hb : block.SpelledBy bs) : next.SpelledBy (is ++ bs ++ [t.token]) := by
  cases h with
  | @finish close => exact hb.finish close hi
  | bind => exact ⟨is, bs ++ [.wordLet], by simp, hi, bs, rfl, hb⟩
  | @giveBack span =>
    have hslot : (Slot.giveBack block span).SpelledBy (bs ++ [.wordReturn]) := ⟨bs, rfl, hb⟩
    have hnext := Draft.SpelledBy.begin hi hslot
    simpa using hnext
  | @choose span =>
    have hslot : (Slot.condition block span []).SpelledBy (bs ++ .wordIf :: []) :=
      ⟨bs, [], rfl, hb, .nil⟩
    have hnext := Draft.SpelledBy.begin hi hslot
    simpa using hnext
  | loop => exact ⟨is, bs ++ [.wordFor], by simp, hi, bs, rfl, hb⟩
  | bare h =>
    have hslot : (Slot.bare block).SpelledBy bs := hb
    have hnext := h.spelled hi hslot .nil
    simpa using hnext

theorem paramRows_cons (param : Name) (done : List Name) :
    paramRows (param :: done) = paramRows done ++ [[.name param.text]] := by
  simp [paramRows]

/-- Every token that the reader takes is part of what the draft spells. -/
theorem Move.spelled {point : Point} {ps : List Token} (h : Move items point t next)
    (hi : SpellsItems items.reverse is) (hp : point.SpelledBy ps) :
    next.SpelledBy (is ++ ps ++ [t.token]) := by
  cases h with
  | function =>
    cases hp
    exact ⟨is, [.wordFn], by simp, hi, rfl⟩
  | @functionName start text span =>
    cases hp
    exact ⟨is, [.wordFn, .name text], by simp, hi, rfl⟩
  | @openParams start name span =>
    cases hp
    exact ⟨is, [.wordFn, .name name.text, .leftParen], by simp, hi, rfl⟩
  | @param start name done text span =>
    cases hp
    exact ⟨is, _, List.append_assoc is _ _, hi, _, _, rfl, rfl⟩
  | @nextParam start name done span =>
    obtain ⟨param, rest, rfl, rfl⟩ := hp
    refine ⟨is, _, List.append_assoc is _ _, hi, ?_⟩
    simp [Point.SpelledBy, paramRows_cons, followed_append_singleton]
  | @noParam start name done span =>
    cases hp
    refine ⟨is, _, List.append_assoc is _ _, hi, true, ?_⟩
    simp [headerTokens, parenthesized, commas_true, paramRows]
  | @lastParam start name done span =>
    obtain ⟨param, rest, rfl, rfl⟩ := hp
    refine ⟨is, _, List.append_assoc is _ _, hi, false, ?_⟩
    have hrows : (param :: rest).reverse.map (fun param => [Token.name param.text]) =
        paramRows rest ++ [[.name param.text]] := paramRows_cons param rest
    rw [headerTokens, hrows, commas_append_singleton]
    simp [parenthesized]
  | @block purpose span => exact .openBlock span hi hp
  | constant =>
    cases hp
    exact ⟨is, [.wordLet], by simp, hi, rfl⟩
  | @constantName text span =>
    cases hp
    exact ⟨is, [.wordLet, .name text], by simp, hi, rfl⟩
  | @constantEquals name span =>
    cases hp
    have hslot : (Slot.constant name).SpelledBy [.wordLet, .name name.text, .equals] := rfl
    have hnext := Draft.SpelledBy.begin hi hslot
    simpa using hnext
  | statement h => exact h.spelled hi hp
  | @bindName block start text span =>
    obtain ⟨us, rfl, hb⟩ := hp
    exact ⟨is, us ++ [.wordLet, .name text], by simp, hi, us, rfl, hb⟩
  | @bindEquals block start name span =>
    obtain ⟨us, rfl, hb⟩ := hp
    have hslot : (Slot.bind block start name).SpelledBy
        (us ++ [.wordLet, .name name.text, .equals]) := ⟨us, rfl, hb⟩
    have hnext := Draft.SpelledBy.begin hi hslot
    simpa using hnext
  | @loopName block start text span =>
    obtain ⟨us, rfl, hb⟩ := hp
    exact ⟨is, us ++ [.wordFor, .name text], by simp, hi, us, rfl, hb⟩
  | @loopIn block start var span =>
    obtain ⟨us, rfl, hb⟩ := hp
    have hslot : (Slot.iterable block start var).SpelledBy
        (us ++ [.wordFor, .name var.text, .wordIn]) := ⟨us, rfl, hb⟩
    have hnext := Draft.SpelledBy.begin hi hslot
    simpa using hnext
  | otherwise =>
    obtain ⟨us, vs, rfl, hb, hd⟩ := hp
    exact ⟨is, us ++ .wordIf :: vs ++ [.wordElse], by simp, hi, us, vs, rfl, hb, hd⟩
  | chosen h =>
    obtain ⟨us, vs, rfl, hb, hd⟩ := hp
    exact h.spelled hi (hb.push (.choose hd.closed))
  | @elseIf block start done span =>
    obtain ⟨us, vs, rfl, hb, hd⟩ := hp
    have hslot : (Slot.condition block start done).SpelledBy
        (us ++ .wordIf :: (vs ++ [.wordElse, .wordIf])) := ⟨us, _, rfl, hb, hd.leading⟩
    have hnext := Draft.SpelledBy.begin hi hslot
    simpa using hnext
  | @elseBlock block start done span =>
    obtain ⟨us, vs, rfl, hb, hd⟩ := hp
    exact .openBlock span hi ⟨us, vs, rfl, hb, hd⟩
  | operand h =>
    obtain ⟨us, vs, rfl, hslot, hw⟩ := hp
    exact h.spelled hi hslot hw
  | @keyword slot head done outer name span =>
    obtain ⟨us, vs, rfl, hslot, hw⟩ := hp
    cases hw with
    | arguments h hh hd hall =>
      have hwait : StackSpells (.arguments head done (some name) :: outer) _ :=
        h.arguments hh hd hall
      have hnext := Draft.SpelledBy.operand hi hslot hwait
      simpa [keywordTokens] using hnext
  | @argument slot stack name t next h =>
    obtain ⟨us, vs, rfl, hslot, hw⟩ := hp
    have he : Spells calleeLevel (.name name.span name.text) [.name name.text] :=
      .literal (s := name.span) rfl
    exact h.spelled hi hslot hw he (by decide) fun _ => Nat.le_refl _
  | operator h =>
    obtain ⟨us, vs, xs, rfl, hslot, hw, he⟩ := hp
    exact h.spelled hi hslot hw he (by decide) fun _ => Nat.le_refl _
  | @fieldName slot stack object text span =>
    obtain ⟨us, vs, xs, rfl, hslot, hw, ho⟩ := hp
    exact ⟨is, us ++ vs ++ xs ++ [.dot, .name text], by simp, hi, us, vs, xs, rfl, hslot, hw, ho⟩
  | @method slot stack object name span =>
    obtain ⟨us, vs, xs, rfl, hslot, hw, ho⟩ := hp
    have hhead : (Head.method object name).SpelledBy (xs ++ [.dot, .name name.text]) :=
      ⟨xs, rfl, ho⟩
    have hnext := Draft.SpelledBy.operand hi hslot (hw.openArguments hhead)
    simpa using hnext
  | @field slot stack object name t next hne h =>
    obtain ⟨us, vs, xs, rfl, hslot, hw, ho⟩ := hp
    have he : Spells fieldLevel (.field (object.span.cover name.span) object name)
        (xs ++ [.dot, .name name.text]) := .field (Nat.le_refl _) ho
    have hnext := h.spelled hi hslot hw he (Nat.le_refl _) fun ht => absurd ht hne
    simpa using hnext

theorem Draft.SpelledBy.step {d : Draft} {ts : List Token} (h : d.SpelledBy ts)
    (hs : d.step t = .ok next) : next.SpelledBy (ts ++ [t.token]) := by
  obtain ⟨items, point⟩ := d
  obtain ⟨is, ps, rfl, hi, hp⟩ := h
  exact (Draft.move_of_step hs).spelled hi hp

/-- A script that the reader ends up with is spelled by all it has read. -/
theorem Draft.SpelledBy.read {d : Draft} {ts : List Token} {rest : List Placed} {p : Program}
    (h : d.SpelledBy ts) (hr : d.read rest = .ok p) : p.SpelledBy (ts ++ words rest) := by
  induction rest generalizing d ts with
  | nil =>
    obtain ⟨items, point⟩ := d
    obtain ⟨is, ps, rfl, hi, hp⟩ := h
    simp only [Draft.read] at hr
    split at hr
    · rename_i q hfinish
      cases hr
      cases point with
      | item =>
        cases hfinish
        cases hp
        simpa [words, Program.SpelledBy] using hi
      | _ => cases hfinish
    · cases hr
  | cons t rest ih =>
    simp only [Draft.read] at hr
    split at hr
    · rename_i next hstep
      have hall := ih (h.step hstep) hr
      simpa [words] using hall
    · cases hr

/-- A script that was read is spelled by the tokens that carry meaning. -/
theorem Program.spelledBy_of_ofTokens {tokens : List Placed} {p : Program}
    (h : Program.ofTokens tokens = .ok p) : p.SpelledBy (words (significant tokens)) := by
  have hstart : Draft.start.SpelledBy [] := ⟨[], [], rfl, .nil, rfl⟩
  simpa using hstart.read (Program.ofTokens_eq_ok_iff.1 h)

end LandPattern.Script
