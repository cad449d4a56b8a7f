import LandPattern.Proofs.Run.Sizes
import LandPattern.Proofs.Script.Literals
import LandPattern.Proofs.Script.PlacelessRules
import LandPattern.Proofs.Script.RoundTrip
import LandPattern.Value.Text

/-!
# Literal forms are read back

What the literal form of a value is read as: the tree of the value, with a minus before the digits of
a negative integer and a comma behind the item of a tuple of one. Floats, elements and functions are
left out, and so is the least integer, whose digits are no integer without their sign.
-/

namespace LandPattern

open Script

/-- The value is built of what a script writes down exactly. -/
inductive Value.Literal : Value → Prop where
  | nothing : Literal .nothing
  | bool (b : Bool) : Literal (.bool b)
  | int {n : Int} (low : Number.minInt < n) (high : n ≤ Number.maxInt) : Literal (.int n)
  | text (s : String) : Literal (.text s)
  | list {s : Sequence Value} (h : ∀ item ∈ s.items, Literal item) : Literal (.list s)
  | tuple {s : Sequence Value} (h : ∀ item ∈ s.items, Literal item) : Literal (.tuple s)

mutual

/-- The tree that the literal form of a value writes. What has no such form stands for none. -/
def Value.expr (v : Value) : Expr :=
  match v with
  | .bool b => .bool .nowhere b
  | .int n => if n < 0 then .unary .nowhere .neg (.int .nowhere (-n)) else .int .nowhere n
  | .text s => .text .nowhere s
  | .list s => .list .nowhere (exprs s.items)
  | .tuple s => .tuple .nowhere (exprs s.items)
  | _ => .none .nowhere
termination_by structural v

/-- The trees of items. -/
def exprs (items : List Value) : List Expr :=
  match items with
  | [] => []
  | v :: rest => v.expr :: exprs rest
termination_by structural items

end

theorem length_exprs (items : List Value) : (exprs items).length = items.length := by
  induction items with
  | nil => rfl
  | cons v rest ih => rw [exprs, List.length_cons, List.length_cons, ih]

/-! ## Tokens -/

/-- Rows of tokens with a comma before each of them. -/
def preceded (rows : List (List Token)) : List Token := rows.flatMap (.comma :: ·)

theorem commas_cons (ts : List Token) (rows : List (List Token)) :
    commas false (ts :: rows) = ts ++ preceded rows := by
  induction rows generalizing ts with
  | nil => exact (List.append_nil ts).symm
  | cons us rest ih =>
    rw [commas, ih]
    rfl

section

variable {rest : List Char} {ts : List Token}

/-- The comma between two items and the blank behind it are no part of any item. -/
theorem lexesTo_separator (h : LexesTo rest ts) : LexesTo (", ".toList ++ rest) (.comma :: ts) :=
  (h.blank (by decide)).alone (by decide) rfl rfl rfl

theorem ends_separator (more : List Char) : Ends (", ".toList ++ more) :=
  ends_cons (by decide) (by decide)

/-- An integer is read as its digits, behind a minus if it is negative. -/
theorem lexesTo_int {n : Int} (low : Number.minInt < n) (high : n ≤ Number.maxInt) (hr : Ends rest)
    (h : LexesTo rest ts) :
    LexesTo ((Value.int n).literal.toList ++ rest) ((Value.int n).expr.form ++ ts) := by
  have hmin : Number.minInt = -Number.maxInt - 1 := by decide
  have hsize : (n.natAbs : Int) ≤ Number.maxInt := by omega
  have hdigits := h.whole hsize hr
  have hform : (Value.int n).literal = toString n := rfl
  rw [hform, Number.toList_toString, Value.expr]
  by_cases hneg : n < 0
  · rw [if_pos hneg, if_pos hneg]
    have hvalue : -n = (n.natAbs : Int) := by omega
    rw [hvalue]
    refine hdigits.sign (by decide) ?_ rfl rfl
    -- what stands behind the minus is a digit, so that both are no sign of two characters
    obtain ⟨d, piece, heq⟩ :=
      List.exists_cons_of_ne_nil (Nat.toDigits_ne_nil : Nat.toDigits 10 n.natAbs ≠ [])
    have hd : d.isDigit = true := by
      have hmem : d ∈ Nat.toDigits 10 n.natAbs := by rw [heq]; exact List.mem_cons_self
      exact Number.isDigit_toDigits _ d hmem
    rw [heq]
    refine Lexeme.doubleSign?_of_ne fun more hsign => ?_
    obtain ⟨rfl, -⟩ := List.cons.inj hsign
    exact absurd hd (by decide)
  · rw [if_neg hneg, if_neg hneg]
    have hvalue : n = (n.natAbs : Int) := by omega
    rw [hvalue]
    exact hdigits

/-- The forms of items behind a comma each, given how the form of one item is read. -/
theorem lexesTo_items {items : List Value}
    (hitem : ∀ v ∈ items, ∀ {rest : List Char} {ts : List Token}, Ends rest → LexesTo rest ts →
      LexesTo (v.literal.toList ++ rest) (v.expr.form ++ ts))
    (hr : Ends rest) (h : LexesTo rest ts) :
    LexesTo ((Value.literals ", " items).toList ++ rest)
        (preceded (forms (exprs items)) ++ ts) ∧
      Ends ((Value.literals ", " items).toList ++ rest) := by
  induction items with
  | nil => exact ⟨h, hr⟩
  | cons v more ih =>
    obtain ⟨hmore, hends⟩ := ih fun w hw => hitem w (List.mem_cons_of_mem _ hw)
    have hfirst := hitem v List.mem_cons_self hends hmore
    have htext : (Value.literals ", " (v :: more)).toList ++ rest =
        ", ".toList ++ (v.literal.toList ++ ((Value.literals ", " more).toList ++ rest)) := by
      rw [Value.literals, String.toList_append, String.toList_append, List.append_assoc,
        List.append_assoc]
    have htokens : preceded (forms (exprs (v :: more))) ++ ts =
        .comma :: (v.expr.form ++ (preceded (forms (exprs more)) ++ ts)) := by
      rw [exprs, forms, preceded, List.flatMap_cons, List.append_assoc]
      rfl
    rw [htext, htokens]
    exact ⟨lexesTo_separator hfirst, ends_separator _⟩

/-- The forms of items with commas between them, given how the form of one item is read. -/
theorem lexesTo_commas {items : List Value}
    (hitem : ∀ v ∈ items, ∀ {rest : List Char} {ts : List Token}, Ends rest → LexesTo rest ts →
      LexesTo (v.literal.toList ++ rest) (v.expr.form ++ ts))
    (hr : Ends rest) (h : LexesTo rest ts) :
    LexesTo ((Value.literals "" items).toList ++ rest)
      (commas false (forms (exprs items)) ++ ts) := by
  cases items with
  | nil => exact h
  | cons v more =>
    obtain ⟨hmore, hends⟩ := lexesTo_items (fun w hw => hitem w (List.mem_cons_of_mem _ hw)) hr h
    have hfirst := hitem v List.mem_cons_self hends hmore
    rw [Value.literals, String.empty_append, String.toList_append, List.append_assoc, exprs, forms,
      commas_cons, List.append_assoc]
    exact hfirst

/-- The comma behind a single item is read as a token of its own, like the one that the tree of a
tuple of one asks for. -/
theorem lexesTo_closing (items : List Value) (h : LexesTo rest ts) :
    ∃ closing : List Char, (Value.tupleBrackets items.length).closing.toList = closing ∧
      LexesTo (closing ++ rest)
        ((if items.length = 1 then [.comma, .rightParen] else [.rightParen]) ++ ts) ∧
      Ends (closing ++ rest) := by
  have hparen : LexesTo (')' :: rest) (.rightParen :: ts) :=
    h.alone (by decide) rfl rfl rfl
  refine ⟨_, rfl, ?_⟩
  unfold Value.tupleBrackets
  by_cases hone : items.length = 1
  · rw [if_pos hone, if_pos hone]
    exact ⟨hparen.alone (by decide) rfl rfl rfl,
      ends_cons (by decide) (by decide)⟩
  · rw [if_neg hone, if_neg hone]
    exact ⟨hparen, ends_cons (by decide) (by decide)⟩

/-- The tokens of a tuple, with the comma of a tuple of one at its end. -/
theorem form_tuple (items : List Value) :
    (Expr.tuple .nowhere (exprs items)).form = .leftParen :: (commas false (forms (exprs items)) ++
      if items.length = 1 then [.comma, .rightParen] else [.rightParen]) := by
  rw [Expr.form, length_exprs, parenthesized]
  by_cases hone : items.length = 1
  · obtain ⟨v, rfl⟩ := List.length_eq_one_iff.1 hone
    rw [if_pos hone]
    simp [exprs, forms, commas]
  · rw [if_neg hone, beq_eq_false_iff_ne.2 hone]
    rfl

/-- The literal form of a value is read as the tokens of its tree, up to what ends it. -/
theorem Value.Literal.lexes {v : Value} (hv : v.Literal) (hr : Ends rest) (h : LexesTo rest ts) :
    LexesTo (v.literal.toList ++ rest) (v.expr.form ++ ts) := by
  induction hv generalizing rest ts with
  | nothing =>
    exact LexesTo.word 'n' ['o', 'n', 'e'] (by decide) (List.all_eq_true.1 (by decide)) hr h
  | bool b =>
    cases b with
    | true =>
      exact LexesTo.word 't' ['r', 'u', 'e'] (by decide) (List.all_eq_true.1 (by decide)) hr h
    | false =>
      exact LexesTo.word 'f' ['a', 'l', 's', 'e'] (by decide) (List.all_eq_true.1 (by decide)) hr h
  | int low high => exact lexesTo_int low high hr h
  | text s => exact h.quoted s
  | @list s _ ih =>
    have hclose : LexesTo (']' :: rest) (.rightBracket :: ts) :=
      h.alone (by decide) rfl rfl rfl
    have hitems := lexesTo_commas (fun w hw => ih w hw) (ends_cons (by decide) (by decide)) hclose
    have hall : LexesTo ('[' :: ((Value.literals "" s.items).toList ++ ']' :: rest))
        (.leftBracket :: (commas false (forms (exprs s.items)) ++ .rightBracket :: ts)) :=
      hitems.alone (by decide) rfl rfl rfl
    simpa [Value.literal, Value.listBrackets, Value.expr, Expr.form] using hall
  | @tuple s _ ih =>
    obtain ⟨closing, hclosing, hclose, hends⟩ := lexesTo_closing s.items h
    have hitems := lexesTo_commas (fun w hw => ih w hw) hends hclose
    have hall : LexesTo ('(' :: ((Value.literals "" s.items).toList ++ (closing ++ rest)))
        (.leftParen :: (commas false (forms (exprs s.items)) ++
          ((if s.items.length = 1 then [.comma, .rightParen] else [.rightParen]) ++ ts))) :=
      hitems.alone (by decide) rfl rfl rfl
    have htext : (Value.tuple s).literal.toList ++ rest =
        '(' :: ((Value.literals "" s.items).toList ++ (closing ++ rest)) := by
      have hopening : (Value.tupleBrackets s.items.length).opening.toList = ['('] := by
        simp [Value.tupleBrackets]
      rw [Value.literal]
      simp only [String.toList_append, hopening, hclosing, List.append_assoc]
      rfl
    rw [htext, Value.expr, form_tuple, List.cons_append, List.append_assoc]
    exact hall

end

/-! ## Brackets and depths -/

theorem nested_commas {inner : Nat} {trailing : Bool} {rows : List (List Token)}
    (h : Script.Nested inner (commas false rows)) : Script.Nested inner (commas trailing rows) := by
  cases trailing with
  | false => exact h
  | true =>
    rcases List.eq_nil_or_concat rows with rfl | ⟨front, last, rfl⟩
    · exact h
    · rw [List.concat_eq_append] at h ⊢
      rw [commas_append_singleton] at h
      rw [commas_true, followed_append_singleton, ← Nat.max_zero inner]
      exact h.append (.plain rfl)

/-- Items open as many levels as the highest of them. -/
theorem nested_items {items : List Value}
    (h : ∀ v ∈ items, Script.Nested v.height v.expr.form) :
    Script.Nested (heightOf items) (commas false (forms (exprs items))) := by
  have hall : ∀ rest : List Value, (∀ v ∈ rest, Script.Nested v.height v.expr.form) →
      Script.Nested (heightOf rest) (preceded (forms (exprs rest))) := by
    intro rest hrest
    induction rest with
    | nil => exact .nil
    | cons v more ih =>
      have hmore := ih fun w hw => hrest w (List.mem_cons_of_mem _ hw)
      have hfirst := (Script.Nested.plain (t := .comma) rfl).append (hrest v List.mem_cons_self)
      rw [Nat.zero_max] at hfirst
      exact hfirst.append hmore
  cases items with
  | nil => exact .nil
  | cons v more =>
    have hmore := hall more fun w hw => h w (List.mem_cons_of_mem _ hw)
    rw [exprs, forms, commas_cons]
    exact (h v List.mem_cons_self).append hmore

/-- The tokens of a value open as many levels as lists and tuples lie inside one another. -/
theorem Value.Literal.nested {v : Value} (hv : v.Literal) : Script.Nested v.height v.expr.form := by
  induction hv with
  | nothing => exact .plain rfl
  | bool b => cases b <;> exact .plain rfl
  | @int n _ _ =>
    rw [Value.expr]
    split
    · exact (Script.Nested.plain (t := .minus) rfl).append (.plain rfl)
    · exact .plain rfl
  | text s => exact .plain rfl
  | list _ ih =>
    rw [Value.expr, Value.height, Expr.form]
    exact (nested_items ih).wrap rfl rfl rfl
  | tuple _ ih =>
    rw [Value.expr, Value.height, Expr.form]
    exact (nested_commas (nested_items ih)).wrap rfl rfl rfl

/-- No visited node is deeper than the limit, and none has a problem of its own. -/
def Spotless (limit : Nat) (visits : List (Nat × Expr)) : Prop :=
  ∀ visit ∈ visits, visit.1 ≤ limit ∧ nodeProblems visit.2 = []

theorem visitProblems_of_spotless {limit : Nat} {root : Span} {visits : List (Nat × Expr)}
    (h : Spotless limit visits) : visitProblems limit root false visits = [] := by
  induction visits with
  | nil => rfl
  | cons visit rest ih =>
    obtain ⟨depth, e⟩ := visit
    obtain ⟨hdepth, hnode⟩ := h (depth, e) List.mem_cons_self
    have hrest := ih fun other hother => h other (List.mem_cons_of_mem _ hother)
    have hlimit : ¬ limit < depth := Nat.not_lt.2 hdepth
    simp only [visitProblems, hlimit, decide_false, Bool.false_and, Bool.false_eq_true, if_false,
      hnode, List.nil_append]
    exact hrest

theorem Spotless.cons {limit depth : Nat} {e : Expr} {visits : List (Nat × Expr)}
    (hd : depth ≤ limit) (hn : nodeProblems e = []) (h : Spotless limit visits) :
    Spotless limit ((depth, e) :: visits) := by
  intro visit hvisit
  rcases List.mem_cons.1 hvisit with rfl | htail
  · exact ⟨hd, hn⟩
  · exact h visit htail

/-- The nodes of items are as deep as the highest item reaches. -/
theorem spotless_items {limit depth : Nat} {items : List Value} {later : List (Nat × Expr)}
    (h : ∀ v ∈ items, ∀ {depth : Nat} {later : List (Nat × Expr)},
      v.expr.height + depth ≤ limit + 1 → Spotless limit later →
        Spotless limit (v.expr.visits depth later))
    (hd : itemHeight (exprs items) + depth ≤ limit + 1) (hl : Spotless limit later) :
    Spotless limit (itemVisits depth (exprs items) later) := by
  induction items generalizing later with
  | nil => exact hl
  | cons v rest ih =>
    rw [exprs, itemHeight] at hd
    have hfirst : Spotless limit (v.expr.visits depth later) :=
      h v List.mem_cons_self (by omega) hl
    rw [exprs, itemVisits]
    exact ih (fun w hw => h w (List.mem_cons_of_mem _ hw)) (by omega) hfirst

/-- The tree of a value has no problems but its height. -/
theorem Value.Literal.spotless {v : Value} (hv : v.Literal) {limit depth : Nat}
    {later : List (Nat × Expr)} (hd : v.expr.height + depth ≤ limit + 1)
    (hl : Spotless limit later) : Spotless limit (v.expr.visits depth later) := by
  induction hv generalizing depth later with
  | nothing => exact hl.cons (by simp only [Value.expr, Expr.height] at hd; omega) rfl
  | bool b => exact hl.cons (by simp only [Value.expr, Expr.height] at hd; omega) rfl
  | @int n _ _ =>
    by_cases hneg : n < 0
    · simp only [Value.expr, if_pos hneg, Expr.height] at hd
      simp only [Value.expr, if_pos hneg, Expr.visits]
      exact (hl.cons (by omega) rfl).cons (by omega) rfl
    · simp only [Value.expr, if_neg hneg, Expr.height] at hd
      simp only [Value.expr, if_neg hneg, Expr.visits]
      exact hl.cons (by omega) rfl
  | text s => exact hl.cons (by simp only [Value.expr, Expr.height] at hd; omega) rfl
  | @list s _ ih =>
    rw [Value.expr, Expr.height] at hd
    have hitems : Spotless limit (itemVisits (depth + 1) (exprs s.items) later) :=
      spotless_items ih (by omega) hl
    rw [Value.expr, Expr.visits]
    exact hitems.cons (by omega) rfl
  | @tuple s _ ih =>
    rw [Value.expr, Expr.height] at hd
    have hitems : Spotless limit (itemVisits (depth + 1) (exprs s.items) later) :=
      spotless_items ih (by omega) hl
    rw [Value.expr, Expr.visits]
    exact hitems.cons (by omega) rfl

/-- The tree of a value stands nowhere. -/
theorem Value.Literal.bare_expr {v : Value} (hv : v.Literal) : v.expr.bare = v.expr := by
  have hitems : ∀ items : List Value, (∀ w ∈ items, w.expr.bare = w.expr) →
      bareItems (exprs items) = exprs items := by
    intro items h
    induction items with
    | nil => rfl
    | cons w rest ih =>
      rw [exprs, bareItems, h w List.mem_cons_self, ih fun u hu => h u (List.mem_cons_of_mem _ hu)]
  induction hv with
  | nothing => rfl
  | bool b => rfl
  | @int n _ _ =>
    rw [Value.expr]
    split <;> rfl
  | text s => rfl
  | @list s _ ih => rw [Value.expr, Expr.bare, hitems s.items ih]
  | @tuple s _ ih => rw [Value.expr, Expr.bare, hitems s.items ih]

/-! ## Scripts -/

/-- The script whose only definition is a constant with this literal as its value. -/
def Value.script (v : Value) : String := "let value = " ++ v.literal ++ ";"

/-- A tree that is a value's tree without its places has no problems where the limit leaves room for
its height. -/
theorem Value.Literal.problems {v : Value} (hv : v.Literal) {limit : Nat}
    (hl : v.expr.height ≤ limit) {e : Expr} (he : e.bare = v.expr) : e.problems limit = [] := by
  have hnone : Spotless limit [] := fun _ h => absurd h List.not_mem_nil
  have hspotless : Spotless limit (v.expr.visits 1 []) := hv.spotless (by omega) hnone
  have hproblems := e.problems_bare limit
  rw [he, Expr.problems, visitProblems_of_spotless hspotless] at hproblems
  exact List.map_eq_nil_iff.1 hproblems.symm

/-- The tokens of a script that keeps the value of an expression. -/
def Script.Expr.scriptTokens (e : Expr) : List Token :=
  .wordLet :: .name "value" :: .equals :: (e.form ++ [.semicolon])

/-- The script that keeps a value is the tokens around its literal form. -/
theorem Value.Literal.lexes_script {v : Value} (hv : v.Literal) :
    LexesTo v.script.toList v.expr.scriptTokens := by
  have hend : LexesTo [';'] [.semicolon] :=
    LexesTo.nil.alone (by decide) rfl rfl rfl
  have hvalue := hv.lexes (ends_cons (by decide) (by decide)) hend
  have hequals : LexesTo ('=' :: ' ' :: (v.literal.toList ++ [';']))
      (.equals :: (v.expr.form ++ [.semicolon])) :=
    (hvalue.blank (by decide)).sign (by decide) rfl rfl rfl
  have hname : LexesTo ("value".toList ++ ' ' :: '=' :: ' ' :: (v.literal.toList ++ [';']))
      (.name "value" :: .equals :: (v.expr.form ++ [.semicolon])) :=
    LexesTo.word 'v' ['a', 'l', 'u', 'e'] (by decide) (List.all_eq_true.1 (by decide))
      (ends_cons (by decide) (by decide)) (hequals.blank (by decide))
  have hall := LexesTo.word 'l' ['e', 't'] (by decide) (List.all_eq_true.1 (by decide))
    (ends_cons (by decide) (by decide)) (hname.blank (by decide : Text.isBlank ' ' = true))
  have hword : Token.ofWord (String.ofList ['l', 'e', 't']) = .wordLet := by decide
  rw [hword] at hall
  simpa [Value.script, Script.Expr.scriptTokens] using hall

/-- Its brackets are those of the literal form. -/
theorem Value.Literal.nested_script {v : Value} (hv : v.Literal) :
    Script.Nested v.height v.expr.scriptTokens := by
  have hfront : Script.Nested 0 [.wordLet, .name "value", .equals] :=
    ((Nested.plain (t := .wordLet) rfl).append (.plain (t := .name "value") rfl)).append
      (.plain (t := .equals) rfl)
  have hall := (hfront.append hv.nested).append (.plain (t := .semicolon) rfl)
  simpa [Script.Expr.scriptTokens] using hall

/-- The literal form of a value is read as one expression, which is the tree of the value, where the
limits leave room for its brackets and for the height of the tree. -/
theorem Value.Literal.reads {v : Value} (hv : v.Literal) {depths : Depths}
    (hn : v.height ≤ depths.nesting) (he : v.expr.height ≤ depths.expression) :
    ∃ name e, Program.ofText depths v.script = .ok ⟨[.constant name e]⟩ ∧ name.text = "value" ∧
      e.bare = v.expr := by
  obtain ⟨tokens, hlexed, hwords⟩ := hv.lexes_script 0
  have hbrackets : tooDeepBracket? depths.nesting 0 tokens = none := by
    have hlevel := hv.nested_script depths.nesting 0 (Nat.zero_le _)
    rw [if_pos (by omega)] at hlevel
    rw [tooDeepBracket?_eq_none_iff, hwords, hlevel]
    rfl
  have hspelled : Program.SpelledBy ⟨[.constant ⟨"value", .nowhere⟩ v.expr]⟩
      (words (significant tokens)) := by
    have hitem : SpellsItem (.constant ⟨"value", .nowhere⟩ v.expr) v.expr.scriptTokens :=
      .constant v.expr.form_spelled_zero
    have hitems := SpellsItems.cons hitem .nil
    rw [List.append_nil] at hitems
    rw [hwords]
    exact hitems
  obtain ⟨⟨items⟩, hprogram, hbare⟩ := Program.ofTokens_of_spelledBy hspelled
  have hitems : items.map Item.bare = [.constant ⟨"value", .nowhere⟩ v.expr] := by
    have heq := congrArg Program.items hbare
    simpa [Program.bare, Item.bare, Name.bare, hv.bare_expr] using heq
  obtain ⟨item, rfl, hitem⟩ := List.map_eq_singleton_iff.1 hitems
  cases item with
  | function f => cases hitem
  | constant name e =>
    obtain ⟨hname, htree⟩ := Item.constant.inj hitem
    have hproblems : (⟨[.constant name e]⟩ : Program).problems depths.expression = [] := by
      simp [Program.problems, Program.functions, definitionProblems, earlier?, Item.valueProblems,
        hv.problems he htree]
    refine ⟨name, e, ?_, congrArg Name.text hname, htree⟩
    simp only [Program.ofText, tokenize_eq_ok_iff.2 hlexed, hbrackets, hprogram, hproblems]

end LandPattern
