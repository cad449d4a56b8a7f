import LandPattern.Proofs.Script.Accepting

/-!
# The texts of a script

Every text that stands in the tree of a script is one of its tokens.
-/

namespace LandPattern.Script

mutual

/-- The texts between quotes in an expression. -/
def Expr.texts (e : Expr) : List String :=
  match e with
  | .text _ value => [value]
  | .list _ items | .tuple _ items => itemTexts items
  | .unary _ _ operand => operand.texts
  | .binary _ _ left right => left.texts ++ right.texts
  | .call _ callee args => callee.texts ++ argumentTexts args
  | .method _ receiver _ args => receiver.texts ++ argumentTexts args
  | .field _ object _ => object.texts
  | .index _ object position => object.texts ++ position.texts
  | _ => []
termination_by structural e

/-- The texts in items. -/
def itemTexts (items : List Expr) : List String :=
  match items with
  | [] => []
  | e :: rest => e.texts ++ itemTexts rest
termination_by structural items

/-- The texts in arguments. -/
def argumentTexts (args : List Argument) : List String :=
  match args with
  | [] => []
  | .positional e :: rest => e.texts ++ argumentTexts rest
  | .keyword _ e :: rest => e.texts ++ argumentTexts rest
termination_by structural args

end

mutual

/-- The texts in a statement. -/
def Stmt.texts (s : Stmt) : List String :=
  match s with
  | .bind _ _ value => value.texts
  | .assign _ target _ value => target.texts ++ value.texts
  | .expr _ value => value.texts
  | .giveBack _ none => []
  | .giveBack _ (some value) => value.texts
  | .choose _ branches otherwise => branchTexts branches ++ otherwiseTexts otherwise
  | .loop _ _ iterable body => iterable.texts ++ body.texts
termination_by structural s

/-- The texts in a row of statements. -/
def statementTexts (statements : List Stmt) : List String :=
  match statements with
  | [] => []
  | s :: rest => s.texts ++ statementTexts rest
termination_by structural statements

/-- The texts in a block. -/
def Block.texts (block : Block) : List String :=
  match block with
  | .mk _ statements => statementTexts statements
termination_by structural block

/-- The texts in branches. -/
def branchTexts (branches : List Branch) : List String :=
  match branches with
  | [] => []
  | .mk condition body :: rest => condition.texts ++ body.texts ++ branchTexts rest
termination_by structural branches

/-- The texts in the last block of a choice. -/
def otherwiseTexts (otherwise : Option Block) : List String :=
  match otherwise with
  | none => []
  | some body => body.texts
termination_by structural otherwise

end

/-- The texts in a definition. -/
def Item.texts : Item → List String
  | .function definition => definition.body.texts
  | .constant _ value => value.texts

/-- The texts in a script. -/
def Program.texts (p : Program) : List String := p.items.flatMap Item.texts

/-- The texts in a part of the body of a function. -/
def Part.texts : Part → List String
  | .statement s => s.texts
  | .statements rest => statementTexts rest
  | .block b => b.texts
  | .branches rest otherwise => branchTexts rest ++ otherwiseTexts otherwise

/-- The words for these texts stand among the tokens. -/
def Written (texts : List String) (ts : List Token) : Prop := ∀ text ∈ texts, .text text ∈ ts

namespace Written

variable {texts others : List String} {ts us : List Token}

theorem nil : Written [] ts := fun _ h => absurd h List.not_mem_nil

theorem append (h : Written texts ts) (ho : Written others ts) : Written (texts ++ others) ts :=
  fun text htext => (List.mem_append.1 htext).elim (h text) (ho text)

theorem mono (h : Written texts ts) (hs : ∀ t ∈ ts, t ∈ us) : Written texts us :=
  fun text htext => hs _ (h text htext)

/-- Tokens behind and before others stay. -/
theorem left (h : Written texts ts) (us : List Token) : Written texts (ts ++ us) :=
  h.mono fun _ => List.mem_append_left us

theorem right (h : Written texts us) (ts : List Token) : Written texts (ts ++ us) :=
  h.mono fun _ => List.mem_append_right ts

theorem cons (h : Written texts ts) (t : Token) : Written texts (t :: ts) :=
  h.mono fun _ => List.mem_cons_of_mem t

theorem parenthesized (h : Written texts ts) : Written texts (parenthesized ts) :=
  (h.cons .leftParen).left [.rightParen]

end Written

theorem mem_commas {trailing : Bool} {rows : List (List Token)} {row : List Token} {t : Token}
    (hrow : row ∈ rows) (ht : t ∈ row) : t ∈ commas trailing rows := by
  induction rows with
  | nil => cases hrow
  | cons first rest ih =>
    cases rest with
    | nil =>
      rw [List.mem_singleton.1 hrow] at ht
      simp only [commas]
      split
      · exact List.mem_append_left _ ht
      · exact ht
    | cons second more =>
      simp only [commas]
      rcases List.mem_cons.1 hrow with heq | hmore
      · exact List.mem_append_left _ (heq ▸ ht)
      · exact List.mem_append_right _ (List.mem_cons_of_mem _ (ih hmore))

/-- The texts of items stand among the tokens of all of them. -/
theorem Written.items {trailing : Bool} {items : List (Expr × List Token)}
    (h : ∀ p ∈ items, Written p.1.texts p.2) :
    Written (itemTexts (items.map Prod.fst)) (commas trailing (items.map Prod.snd)) := by
  have hall : ∀ (rows : List (List Token)) (rest : List (Expr × List Token)),
      (∀ p ∈ rest, Written p.1.texts p.2 ∧ p.2 ∈ rows) →
      Written (itemTexts (rest.map Prod.fst)) (commas trailing rows) := by
    intro rows rest hrest
    induction rest with
    | nil => exact .nil
    | cons p rest ih =>
      have hfirst := hrest p List.mem_cons_self
      exact .append (hfirst.1.mono fun _ => mem_commas hfirst.2)
        (ih fun q hq => hrest q (List.mem_cons_of_mem _ hq))
  exact hall _ _ fun p hp => ⟨h p hp, List.mem_map_of_mem hp⟩

/-- The texts of arguments stand among the tokens of all of them. -/
theorem Written.arguments {trailing : Bool} {args : List (Argument × List Token)}
    (h : ∀ p ∈ args, Written p.1.value.texts p.2) :
    Written (argumentTexts (args.map Prod.fst))
      (commas trailing (args.map fun p => p.1.tokens p.2)) := by
  have hall : ∀ (rows : List (List Token)) (rest : List (Argument × List Token)),
      (∀ p ∈ rest, Written p.1.value.texts p.2 ∧ p.1.tokens p.2 ∈ rows) →
      Written (argumentTexts (rest.map Prod.fst)) (commas trailing rows) := by
    intro rows rest hrest
    induction rest with
    | nil => exact .nil
    | cons p rest ih =>
      obtain ⟨a, ts⟩ := p
      have hfirst := hrest (a, ts) List.mem_cons_self
      have hothers := ih fun q hq => hrest q (List.mem_cons_of_mem _ hq)
      cases a with
      | positional e => exact .append (hfirst.1.mono fun _ => mem_commas hfirst.2) hothers
      | keyword name e =>
        have hvalue : Written e.texts (.name name.text :: .equals :: ts) :=
          (hfirst.1.cons _).cons _
        exact .append (hvalue.mono fun _ => mem_commas hfirst.2) hothers
  exact hall _ _ fun p hp => ⟨h p hp, List.mem_map_of_mem hp⟩

/-- Every text in an expression is one of its tokens. -/
theorem Spells.written {level : Nat} {e : Expr} {ts : List Token} (h : Spells level e ts) :
    Written e.texts ts := by
  induction h with
  | @literal _ t s e h =>
    cases t <;> simp only [Token.literal?, Option.some.injEq, reduceCtorEq] at h <;> subst h
    case text value =>
      intro text htext
      rw [List.mem_singleton.1 htext]
      exact List.mem_singleton.2 rfl
    all_goals exact .nil
  | group _ ih => exact ih.parenthesized
  | list trailing _ ih => exact ((Written.items ih).cons _).left _
  | tuple trailing _ _ ih => exact (Written.items ih).parenthesized
  | unary _ _ ih => exact ih.cons _
  | binary _ _ _ ihl ihr => exact (ihl.left _).append ((ihr.cons _).right _)
  | call trailing _ _ ihc ih =>
    exact (ihc.left _).append ((Written.arguments ih).parenthesized.right _)
  | method trailing _ _ ihr ih =>
    exact (ihr.left _).append ((((Written.arguments ih).parenthesized.cons _).cons _).right _)
  | field _ _ ih => exact ih.left _
  | index _ _ iho ihp => exact ((iho.left _).append ((ihp.cons _).right _)).left _

/-- Every text in a part of a body is one of its tokens. -/
theorem SpellsPart.written {part : Part} {ts : List Token} (h : SpellsPart part ts) :
    Written part.texts ts := by
  induction h with
  | bind h => exact (((h.written.cons _).cons _).cons _).left _
  | assign ht hv => exact ((ht.written.left _).append ((hv.written.cons _).right _)).left _
  | expr h => exact h.written.left _
  | giveNothing => exact .nil
  | giveBack h => exact (h.written.cons _).left _
  | choose _ ih => exact ih.cons _
  | loop he _ ih =>
    exact (((he.written.left _).append (ih.right _)).cons _ |>.cons _ |>.cons _)
  | nil => exact .nil
  | cons _ _ ihs ihr => exact (ihs.left _).append (ihr.right _)
  | block _ ih => exact (ih.cons _).left _
  | last hc _ ih => exact (((hc.written.left _).append (ih.right _)).append .nil).append .nil
  | otherwise hc _ _ ihb iho =>
    exact ((((hc.written.left _).append (ihb.right _)).append .nil).left _).append
      ((iho.cons _).right _)
  | @branch condition body rest otherwise ts us vs hc _ _ ihb ihr =>
    have hfront : Written (condition.texts ++ body.texts) (ts ++ us) :=
      (hc.written.left us).append (ihb.right ts)
    have hrest := ((ihr.cons .wordIf).cons .wordElse).right (ts ++ us)
    have hall := (hfront.left (.wordElse :: .wordIf :: vs)).append hrest
    simpa [Part.texts, branchTexts] using hall

/-- Every text in a script is one of the tokens it was read from. -/
theorem Program.texts_mem_of_ofTokens {tokens : List Placed} {p : Program} {text : String}
    (h : Program.ofTokens tokens = .ok p) (htext : text ∈ p.texts) :
    ∃ t ∈ tokens, t.token = .text text := by
  have hspelled := Program.spelledBy_of_ofTokens h
  have hwritten : Written p.texts (words (significant tokens)) := by
    obtain ⟨items⟩ := p
    change SpellsItems items _ at hspelled
    generalize words (significant tokens) = ts at hspelled
    clear h htext
    induction hspelled with
    | nil => exact .nil
    | cons hi _ ih =>
      refine .append ?_ (ih.right _)
      cases hi with
      | function trailing hbody => exact (hbody.written.right _).left _
      | constant hvalue => exact ((((hvalue.written.cons _).cons _).cons _).left _).left _
  obtain ⟨t, ht, htoken⟩ := List.mem_map.1 (hwritten text htext)
  exact ⟨t, (List.mem_filter.1 ht).1, htoken⟩

end LandPattern.Script
