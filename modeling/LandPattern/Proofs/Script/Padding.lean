import LandPattern.Proofs.Script.Printed

/-!
# Parentheses and commas that may be left out

Every spelling of a tree comes from the printed one by putting parentheses around expressions and
commas in front of closing brackets, one after the other, and every row of tokens on the way is a
spelling of the same tree.
-/

namespace LandPattern.Script

/-- The tokens come from others by parentheses around expressions and commas in front of closing
brackets; each of these steps keeps what `Keeps` says. -/
inductive Pads (Keeps : List Token → Prop) (start : List Token) : List Token → Prop where
  | refl : Pads Keeps start start
  | group {before inner after : List Token} {e : Expr}
    (h : Pads Keeps start (before ++ inner ++ after)) (he : Spells 0 e inner)
    (keeps : Keeps (before ++ parenthesized inner ++ after)) :
    Pads Keeps start (before ++ parenthesized inner ++ after)
  | comma {before after : List Token} {close : Token}
    (h : Pads Keeps start (before ++ close :: after))
    (closes : close = .rightParen ∨ close = .rightBracket)
    (keeps : Keeps (before ++ .comma :: close :: after)) :
    Pads Keeps start (before ++ .comma :: close :: after)

namespace Pads

variable {Keeps : List Token → Prop} {ts us vs : List Token}

theorem trans {v : List Token} (h : Pads Keeps ts us) (hu : Pads Keeps us v) : Pads Keeps ts v := by
  induction hu with
  | refl => exact h
  | group _ he keeps ih => exact .group ih he keeps
  | comma _ closes keeps ih => exact .comma ih closes keeps

/-- What is padded inside other tokens is padded as a part of all of them. -/
theorem within (h : Pads Keeps ts us) (Whole : List Token → Prop) (before after : List Token)
    (hk : ∀ vs, Keeps vs → Whole (before ++ vs ++ after)) :
    Pads Whole (before ++ ts ++ after) (before ++ us ++ after) := by
  induction h with
  | refl => exact .refl
  | @group left inner right e _ he keeps ih =>
    have hw := hk _ keeps
    have hall : Pads Whole (before ++ ts ++ after)
        (before ++ left ++ parenthesized inner ++ (right ++ after)) :=
      .group (by simpa using ih) he (by simpa using hw)
    simpa using hall
  | @comma left right close _ closes keeps ih =>
    have hw := hk _ keeps
    have hall : Pads Whole (before ++ ts ++ after)
        (before ++ left ++ .comma :: close :: (right ++ after)) :=
      .comma (by simpa using ih) closes (by simpa using hw)
    simpa using hall

/-- Of two parts of all the tokens, the first is padded while the other is still as it was. -/
theorem both {First Second : List Token → Prop} {ts' us' : List Token} (hf : Pads First ts ts')
    (hs : Pads Second us us') (Whole : List Token → Prop) (before between after : List Token)
    (kf : ∀ vs, First vs → Whole (before ++ vs ++ (between ++ us ++ after)))
    (ks : ∀ vs, Second vs → Whole (before ++ ts' ++ between ++ vs ++ after)) :
    Pads Whole (before ++ ts ++ (between ++ us ++ after))
      (before ++ ts' ++ between ++ us' ++ after) := by
  have hfirst := hf.within Whole before (between ++ us ++ after) kf
  have hsecond := hs.within Whole (before ++ ts' ++ between) after ks
  exact hfirst.trans (by simpa using hsecond)

end Pads

/-- A row among others stands between tokens that do not depend on it. -/
theorem commas_middle (trailing : Bool) (rows others : List (List Token)) :
    ∃ after, ∀ ts, commas trailing (rows ++ ts :: others) = followed rows ++ ts ++ after := by
  induction rows with
  | nil =>
    cases others with
    | nil =>
      refine ⟨if trailing then [.comma] else [], fun ts => ?_⟩
      cases trailing <;> simp [commas, followed]
    | cons us more => exact ⟨.comma :: commas trailing (us :: more), fun ts => by
        simp [commas, followed]⟩
  | cons us rest ih =>
    obtain ⟨after, ih⟩ := ih
    refine ⟨after, fun ts => ?_⟩
    have hne : ∃ vs more, rest ++ ts :: others = vs :: more := by
      cases rest with
      | nil => exact ⟨ts, others, rfl⟩
      | cons vs more => exact ⟨vs, more ++ ts :: others, rfl⟩
    obtain ⟨vs, more, hrest⟩ := hne
    rw [List.cons_append, hrest, commas, ← hrest, ih]
    simp [followed]

theorem commas_true_eq {rows : List (List Token)} (h : rows ≠ []) :
    commas true rows = commas false rows ++ [.comma] := by
  induction rows with
  | nil => exact absurd rfl h
  | cons ts rest ih =>
    cases rest with
    | nil => rfl
    | cons us more => rw [commas, ih (by simp), commas, List.append_assoc, List.cons_append]

section

variable {α : Type}

/-- The items are written by these tokens, where nothing waits for them. -/
def ItemsSpelled (value : α → Expr) (items : List (α × List Token)) : Prop :=
  ∀ p ∈ items, Spells 0 (value p.1) p.2

/-- The items with the tokens of the printer. -/
def printedItems (value : α → Expr) (items : List (α × List Token)) : List (α × List Token) :=
  items.map fun p => (p.1, (value p.1).form)

/-- The rows of tokens that the items are written by, commas apart. -/
def itemRows (write : α → List Token → List Token) (items : List (α × List Token)) :
    List (List Token) := items.map fun p => write p.1 p.2

theorem map_fst_printedItems (value : α → Expr) (items : List (α × List Token)) :
    (printedItems value items).map Prod.fst = items.map Prod.fst := by
  simp [printedItems, Function.comp_def]

theorem printedItems_spelled (value : α → Expr) (items : List (α × List Token)) :
    ItemsSpelled value (printedItems value items) := by
  intro p hp
  obtain ⟨q, -, rfl⟩ := List.mem_map.mp hp
  exact (value q.1).form_spelled_zero

variable (write : α → List Token → List Token) (value : α → Expr) (Whole : List Token → Prop)
  (before after : List Token)

/-- The items of a list are padded one after the other. -/
theorem Pads.items (hw : ∀ a ts, write a ts = write a [] ++ ts) (trailing : Bool)
    (done : List (α × List Token)) {items : List (α × List Token)} (hd : ItemsSpelled value done)
    (hi : ItemsSpelled value items)
    (h : ∀ p ∈ items, Pads (Spells 0 (value p.1)) (value p.1).form p.2)
    (hk : ∀ others : List (α × List Token),
      others.map Prod.fst = (done ++ items).map Prod.fst → ItemsSpelled value others →
        Whole (before ++ commas trailing (itemRows write others) ++ after)) :
    Pads Whole
      (before ++ commas trailing (itemRows write (done ++ printedItems value items)) ++ after)
      (before ++ commas trailing (itemRows write (done ++ items)) ++ after) := by
  induction items generalizing done with
  | nil => exact .refl
  | cons p rest ih =>
    obtain ⟨a, ts⟩ := p
    obtain ⟨right, hmiddle⟩ := commas_middle trailing (itemRows write done)
      (itemRows write (printedItems value rest))
    have hrow : ∀ us, commas trailing (itemRows write (done ++ (a, us) :: printedItems value rest)) =
        followed (itemRows write done) ++ write a [] ++ us ++ right := fun us => by
      have hm := hmiddle (write a us)
      rw [hw a us] at hm
      rw [← List.append_assoc] at hm
      rw [← hm, ← hw a us]
      simp [itemRows]
    have hfirst : Pads Whole
        (before ++ commas trailing (itemRows write (done ++ printedItems value ((a, ts) :: rest)))
          ++ after)
        (before ++ commas trailing (itemRows write (done ++ (a, ts) :: printedItems value rest))
          ++ after) := by
      have hstep := (h (a, ts) List.mem_cons_self).within Whole
        (before ++ followed (itemRows write done) ++ write a []) (right ++ after) fun vs hv => by
          have hall := hk (done ++ (a, vs) :: printedItems value rest)
            (by simp [map_fst_printedItems]) (by
              intro p hp
              rcases List.mem_append.mp hp with hp | hp
              · exact hd p hp
              · rcases List.mem_cons.mp hp with rfl | hp
                · exact hv
                · exact printedItems_spelled value rest p hp)
          rw [hrow] at hall
          simpa using hall
      rw [printedItems, List.map_cons, ← printedItems, hrow, hrow]
      simpa using hstep
    have hd' : ItemsSpelled value (done ++ [(a, ts)]) := by
      intro p hp
      rcases List.mem_append.mp hp with hp | hp
      · exact hd p hp
      · rw [List.mem_singleton.mp hp]
        exact hi (a, ts) List.mem_cons_self
    have hrest := ih (done ++ [(a, ts)]) hd' (fun p hp => hi p (List.mem_cons_of_mem _ hp))
      (fun p hp => h p (List.mem_cons_of_mem _ hp))
      (fun others ho hs => hk others (by simpa using ho) hs)
    simp only [List.append_assoc, List.singleton_append] at hrest
    simp only [List.append_assoc] at hfirst
    simpa using hfirst.trans hrest

/-- A comma behind the last item may be left out in front of the closing bracket. -/
theorem Pads.trailing (rows : List (List Token)) {close : Token} (trailing : Bool)
    (closes : close = .rightParen ∨ close = .rightBracket)
    (keeps : Whole (before ++ commas trailing rows ++ close :: after)) :
    Pads Whole (before ++ commas false rows ++ close :: after)
      (before ++ commas trailing rows ++ close :: after) := by
  cases trailing with
  | false => exact .refl
  | true =>
    by_cases hne : rows = []
    · rw [hne]
      exact .refl
    · rw [commas_true_eq hne] at keeps ⊢
      have hall : Pads Whole (before ++ commas false rows ++ close :: after)
          (before ++ commas false rows ++ .comma :: close :: after) :=
        .comma .refl closes (by simpa using keeps)
      simpa using hall

/-- A list in brackets is padded in its items, and then in front of the closing bracket. The
printer leaves the last comma out, unless `printed` tells otherwise. -/
theorem Pads.listing (hw : ∀ a ts, write a ts = write a [] ++ ts) (printed trailing : Bool)
    (hp : printed = trailing ∨ printed = false) {items : List (α × List Token)} {close : Token}
    (closes : close = .rightParen ∨ close = .rightBracket) (hi : ItemsSpelled value items)
    (h : ∀ p ∈ items, Pads (Spells 0 (value p.1)) (value p.1).form p.2)
    (hk : ∀ (others : List (α × List Token)) (last : Bool), last = printed ∨ last = trailing →
      others.map Prod.fst = items.map Prod.fst → ItemsSpelled value others →
        Whole (before ++ commas last (itemRows write others) ++ close :: after)) :
    Pads Whole
      (before ++ commas printed (itemRows write (printedItems value items)) ++ close :: after)
      (before ++ commas trailing (itemRows write items) ++ close :: after) := by
  have hitems : Pads Whole
      (before ++ commas printed (itemRows write (printedItems value items)) ++ close :: after)
      (before ++ commas printed (itemRows write items) ++ close :: after) :=
    Pads.items write value Whole before (close :: after) hw printed [] (by simp [ItemsSpelled]) hi h
      fun others ho hs => hk others printed (.inl rfl) ho hs
  rcases hp with rfl | rfl
  · exact hitems
  · exact hitems.trans (Pads.trailing Whole before after _ trailing closes
      (hk items trailing (.inr rfl) rfl hi))

end

/-- An expression that is tight enough is printed without parentheses around it. -/
theorem Expr.print_of_le {level : Nat} {e : Expr} (h : level ≤ e.level) : e.print level = e.form := by
  rw [Expr.print, Script.fit, if_neg (Nat.not_lt.mpr h)]

/-- What an expression asks for depends on the place only as far as it binds less tight itself. -/
theorem Spells.raise {level k : Nat} {e : Expr} {ts : List Token} (h : Spells k e ts)
    (hl : level ≤ e.level) : Spells level e ts := by
  cases h with
  | literal h => exact .literal h
  | group h => exact .group h
  | list trailing h => exact .list trailing h
  | tuple trailing h single => exact .tuple trailing h single
  | unary fits h => exact .unary hl h
  | binary fits hl' hr => exact .binary hl hl' hr
  | call trailing hc h => exact .call trailing hc h
  | method trailing hr h => exact .method trailing hr h
  | field fits h => exact .field hl h
  | index ho hp => exact .index ho hp

theorem form_of_literal? {t : Token} {s : Span} {e : Expr} (h : t.literal? s = some e) :
    e.form = [t] ∧ e.level = calleeLevel := by
  cases t <;> simp only [Token.literal?, Option.some.injEq, reduceCtorEq] at h <;> rw [← h] <;>
    exact ⟨rfl, rfl⟩

theorem Argument.tokens_eq_append (a : Argument) (ts : List Token) :
    a.tokens ts = a.tokens [] ++ ts := by
  cases a <;> rfl

theorem itemRows_printedItems_exprs (items : List (Expr × List Token)) :
    itemRows (fun _ ts => ts) (printedItems id items) = forms (items.map Prod.fst) := by
  simp [itemRows, printedItems, forms_eq_map, Function.comp_def]

theorem itemRows_printedItems_arguments (args : List (Argument × List Token)) :
    itemRows Argument.tokens (printedItems Argument.value args) =
      argumentForms (args.map Prod.fst) := by
  simp [itemRows, printedItems, argumentForms_eq_tokens, Function.comp_def]

/-- Arguments behind what is called are padded, whatever they are the arguments of. -/
theorem Pads.arguments (Whole : List Token → Prop) (front : List Token) (trailing : Bool)
    {args : List (Argument × List Token)} (hi : ItemsSpelled Argument.value args)
    (h : ∀ p ∈ args, Pads (Spells 0 p.1.value) p.1.value.form p.2)
    (hk : ∀ (others : List (Argument × List Token)) (last : Bool),
      others.map Prod.fst = args.map Prod.fst → ItemsSpelled Argument.value others →
        Whole (front ++ parenthesized (commas last (others.map fun p => p.1.tokens p.2)))) :
    Pads Whole (front ++ parenthesized (commas false (argumentForms (args.map Prod.fst))))
      (front ++ parenthesized (commas trailing (args.map fun p => p.1.tokens p.2))) := by
  have hall := Pads.listing Argument.tokens Argument.value Whole (front ++ [.leftParen]) []
    Argument.tokens_eq_append false trailing (.inr rfl) (.inl rfl) hi h
    fun others last _ ho hs => by simpa [parenthesized, itemRows] using hk others last ho hs
  rw [itemRows_printedItems_arguments] at hall
  simpa [parenthesized, itemRows] using hall

/-- Every spelling of an expression is the printed one, padded. -/
theorem Spells.pads {level : Nat} {e : Expr} {ts : List Token} (h : Spells level e ts)
    (hl : level ≤ calleeLevel) : Pads (Spells level e) (e.print level) ts := by
  induction h with
  | literal h =>
    obtain ⟨hform, hlevel⟩ := form_of_literal? h
    rw [Expr.print_of_le (hlevel ▸ hl), hform]
    exact .refl
  | @group level e ts h ih =>
    have hinner := ih (Nat.zero_le _)
    rw [Expr.print_of_le (Nat.zero_le _)] at hinner
    by_cases hlt : e.level < level
    · rw [Expr.print, Script.fit, if_pos hlt]
      have hall := hinner.within (Spells level e) [.leftParen] [.rightParen]
        fun vs hv => .group hv
      exact hall
    · have hle := Nat.le_of_not_lt hlt
      rw [Expr.print_of_le hle]
      have hraised := hinner.within (Spells level e) [] [] fun vs hv => by
        simpa using hv.raise hle
      have hall : Pads (Spells level e) e.form ([] ++ parenthesized ts ++ []) :=
        .group (by simpa using hraised) h (by simpa using Spells.group h)
      simpa using hall
  | @list level s items trailing h ih =>
    rw [Expr.print_of_le hl, Expr.form]
    have hall := Pads.listing (fun _ ts => ts) id (Spells level (.list s (items.map Prod.fst)))
      [.leftBracket] [] (fun _ _ => rfl) false trailing (.inr rfl) (.inr rfl) h
      (fun p hp => ih p hp (Nat.zero_le _))
      fun others last _ ho hs => by
        rw [← ho]
        exact .list last hs
    rw [itemRows_printedItems_exprs] at hall
    exact hall
  | @tuple level s items trailing h single ih =>
    rw [Expr.print_of_le hl, Expr.form]
    have hcase : ((items.map Prod.fst).length == 1) = trailing ∨
        ((items.map Prod.fst).length == 1) = false := by
      by_cases hone : items.length = 1
      · exact .inl (by simp [hone, single hone])
      · exact .inr (by simp [hone])
    have hall := Pads.listing (fun _ ts => ts) id (Spells level (.tuple s (items.map Prod.fst)))
      [.leftParen] [] (fun _ _ => rfl) _ trailing hcase (.inl rfl) h
      (fun p hp => ih p hp (Nat.zero_le _))
      fun others last hlast ho hs => by
        have hlength : others.length = items.length := by
          simpa using congrArg List.length ho
        rw [← ho]
        refine .tuple last hs fun hone => ?_
        rw [hlength] at hone
        rcases hlast with rfl | rfl
        · simp [hone]
        · exact single hone
    rw [itemRows_printedItems_exprs] at hall
    exact hall
  | @unary level s op e ts fits h ih =>
    rw [Expr.print_of_le fits, Expr.form]
    have hop : op.level ≤ calleeLevel := by cases op <;> decide
    have hall := (ih hop).within (Spells level (.unary s op e)) [op.token] []
      fun vs hv => by simpa using Spells.unary fits hv
    simpa [Expr.print] using hall
  | @binary level s op left right ts us fits hleft hright ihl ihr =>
    rw [Expr.print_of_le fits, Expr.form]
    have hop : op.leftLevel ≤ calleeLevel ∧ op.level + 1 ≤ calleeLevel := by
      cases op <;> decide
    have hall := (ihl hop.1).both (ihr hop.2) (Spells level (.binary s op left right)) []
      [op.token] [] (fun vs hv => by simpa using Spells.binary fits hv (right.print_spelled _))
      fun vs hv => by simpa using Spells.binary fits hleft hv
    simpa [Expr.print] using hall
  | @call level s callee ts args trailing hc h ihc ih =>
    rw [Expr.print_of_le hl, Expr.form]
    have hcallee := (ihc (Nat.le_refl _)).within
      (Spells level (.call s callee (args.map Prod.fst))) []
      (parenthesized (commas false (argumentForms (args.map Prod.fst)))) fun vs hv => by
        have hcall : Spells level
            (.call s callee ((printedItems Argument.value args).map Prod.fst)) _ :=
          .call false hv (printedItems_spelled Argument.value args)
        rw [map_fst_printedItems] at hcall
        rw [← itemRows_printedItems_arguments]
        exact hcall
    have hargs := Pads.arguments (Spells level (.call s callee (args.map Prod.fst))) ts trailing h
      (fun p hp => ih p hp (Nat.zero_le _)) fun others last ho hs => by
        rw [← ho]
        exact .call last hc hs
    exact hcallee.trans hargs
  | @method level s receiver name ts args trailing hr h ihr ih =>
    rw [Expr.print_of_le hl, Expr.form]
    have hreceiver := (ihr (by decide)).within
      (Spells level (.method s receiver name (args.map Prod.fst))) []
      (.dot :: .name name.text ::
        parenthesized (commas false (argumentForms (args.map Prod.fst)))) fun vs hv => by
        have hcall : Spells level
            (.method s receiver name ((printedItems Argument.value args).map Prod.fst)) _ :=
          .method false hv (printedItems_spelled Argument.value args)
        rw [map_fst_printedItems] at hcall
        rw [← itemRows_printedItems_arguments]
        exact hcall
    have hargs := Pads.arguments (Spells level (.method s receiver name (args.map Prod.fst)))
      (ts ++ [.dot, .name name.text]) trailing h
      (fun p hp => ih p hp (Nat.zero_le _)) fun others last ho hs => by
        rw [← ho]
        have hcall : Spells level (.method s receiver name (others.map Prod.fst)) _ :=
          .method last hr hs
        simpa using hcall
    have hall := hreceiver.trans (v := ts ++ .dot :: .name name.text :: parenthesized
      (commas trailing (args.map fun p => p.1.tokens p.2))) (by simpa using hargs)
    exact hall
  | @field level s object name ts fits h ih =>
    rw [Expr.print_of_le fits, Expr.form]
    have hall := (ih (by decide)).within (Spells level (.field s object name)) []
      [.dot, .name name.text] fun vs hv => Spells.field fits hv
    exact hall
  | @index level s object position ts us ho hp iho ihp =>
    rw [Expr.print_of_le hl, Expr.form]
    have hposition := ihp (Nat.zero_le _)
    rw [Expr.print_of_le (Nat.zero_le _)] at hposition
    have hall := (iho (by decide)).both hposition (Spells level (.index s object position)) []
      [.leftBracket] [.rightBracket]
      (fun vs hv => by simpa using Spells.index hv position.form_spelled_zero)
      fun vs hv => by simpa using Spells.index ho hv
    simpa [Expr.print] using hall

/-- Where nothing waits for it, an expression is padded from its tokens without parentheses. -/
theorem Spells.padsForm {e : Expr} {ts : List Token} (h : Spells 0 e ts) :
    Pads (Spells 0 e) e.form ts := by
  have hall := h.pads (Nat.zero_le _)
  rwa [Expr.print_of_le (Nat.zero_le _)] at hall

/-- The printer and the padding agree on which part of a body they write. -/
theorem SpellsPart.printed {part : Part} {ts : List Token} (h : SpellsPart part ts) :
    SpellsPart part part.print := by
  have hc := h.complete
  cases part with
  | statement s => exact s.print_spelled hc
  | statements rest => exact printStatements_spelled rest hc
  | block b => exact b.print_spelled hc
  | branches rest otherwise =>
    exact printBranches_spelled rest hc.1 hc.2.1 otherwise (printOtherwise_spelled otherwise hc.2.2)

theorem printBranches_cons (condition : Expr) (body : Block) {rest : List Branch} (h : rest ≠ []) :
    printBranches (.mk condition body :: rest) =
      condition.form ++ body.print ++ .wordElse :: .wordIf :: printBranches rest := by
  rw [printBranches, Branch.print, if_neg (by simpa using h)]

/-- Every spelling of a part of a body is the printed one, padded. -/
theorem SpellsPart.pads {part : Part} {ts : List Token} (h : SpellsPart part ts) :
    Pads (SpellsPart part) part.print ts := by
  induction h with
  | @bind s name e ts h =>
    exact h.padsForm.within (SpellsPart (.statement (.bind s name e)))
      [.wordLet, .name name.text, .equals] [.semicolon] fun vs hv => .bind hv
  | @assign s target value op ts us ht hv =>
    have hall := ht.padsForm.both hv.padsForm (SpellsPart (.statement (.assign s target op value)))
      [] [op.token] [.semicolon]
      (fun vs hvs => by simpa using SpellsPart.assign hvs value.form_spelled_zero)
      fun vs hvs => by simpa using SpellsPart.assign ht hvs
    simpa [Part.print, Stmt.print] using hall
  | @expr s e ts h =>
    exact h.padsForm.within (SpellsPart (.statement (.expr s e))) [] [.semicolon]
      fun vs hv => .expr hv
  | giveNothing => exact .refl
  | @giveBack s e ts h =>
    exact h.padsForm.within (SpellsPart (.statement (.giveBack s (some e)))) [.wordReturn]
      [.semicolon] fun vs hv => .giveBack hv
  | @choose s branches otherwise ts h ih =>
    have hall := ih.within (SpellsPart (.statement (.choose s branches otherwise)))
      [.wordIf] [] fun vs hv => by simpa using SpellsPart.choose hv
    simpa [Part.print, Stmt.print] using hall
  | @loop s var e body ts us he hb ih =>
    have hall := he.padsForm.both ih (SpellsPart (.statement (.loop s var e body)))
      [.wordFor, .name var.text, .wordIn] [] []
      (fun vs hv => by
        have hloop : SpellsPart (.statement (.loop s var e body)) _ := .loop hv hb.printed
        simpa using hloop)
      fun vs hv => by
        have hloop : SpellsPart (.statement (.loop s var e body)) _ := .loop he hv
        simpa using hloop
    simpa [Part.print, Stmt.print] using hall
  | nil => exact .refl
  | @cons s rest ts us hs hr ihs ihr =>
    have hall := ihs.both ihr (SpellsPart (.statements (s :: rest))) [] [] []
      (fun vs hv => by simpa using SpellsPart.cons hv hr.printed)
      fun vs hv => by simpa using SpellsPart.cons hs hv
    simpa [Part.print, printStatements] using hall
  | @block s statements ts h ih =>
    exact ih.within (SpellsPart (.block (.mk s statements))) [.leftBrace] [.rightBrace]
      fun vs hv => .block hv
  | @last condition body ts us hc hb ih =>
    have hall := hc.padsForm.both ih (SpellsPart (.branches [.mk condition body] none)) [] [] []
      (fun vs hv => by simpa using SpellsPart.last hv hb.printed)
      fun vs hv => by simpa using SpellsPart.last hc hv
    simpa [Part.print, printBranches, Branch.print, printOtherwise] using hall
  | @otherwise condition body other ts us vs hc hb ho ihb iho =>
    have hfront := hc.padsForm.both ihb (SpellsPart (.branches [.mk condition body] (some other)))
      [] [] (.wordElse :: other.print)
      (fun xs hx => by simpa [Part.print] using SpellsPart.otherwise hx hb.printed ho.printed)
      fun xs hx => by simpa [Part.print] using SpellsPart.otherwise hc hx ho.printed
    have hlast := iho.within
      (SpellsPart (.branches [.mk condition body] (some other))) (ts ++ us ++ [.wordElse])
      [] fun xs hx => by simpa using SpellsPart.otherwise hc hb hx
    have hall := hfront.trans (v := ts ++ us ++ .wordElse :: vs)
      (by simpa [Part.print] using hlast)
    simpa [Part.print, printBranches, Branch.print, printOtherwise] using hall
  | @branch condition body rest otherwise ts us vs hc hb hr ihb ihr =>
    have hfront := hc.padsForm.both ihb
      (SpellsPart (.branches (.mk condition body :: rest) otherwise)) [] []
      (.wordElse :: .wordIf :: (printBranches rest ++ printOtherwise otherwise))
      (fun xs hx => by simpa [Part.print] using SpellsPart.branch hx hb.printed hr.printed)
      fun xs hx => by simpa [Part.print] using SpellsPart.branch hc hx hr.printed
    have hrest := ihr.within
      (SpellsPart (.branches (.mk condition body :: rest) otherwise))
      (ts ++ us ++ [.wordElse, .wordIf]) [] fun xs hx => by
        simpa using SpellsPart.branch hc hb hx
    have hall := hfront.trans (v := ts ++ us ++ .wordElse :: .wordIf :: vs)
      (by simpa [Part.print] using hrest)
    simpa [Part.print, printBranches_cons condition body hr.complete.1] using hall

/-- Every spelling of a definition is the printed one, padded. -/
theorem SpellsItem.pads {item : Item} {ts : List Token} (h : SpellsItem item ts) :
    Pads (SpellsItem item) item.print ts := by
  cases h with
  | @function f ts trailing h =>
    have hbody := h.pads.within (SpellsItem (.function f))
      (headerTokens false f.name f.params) [] fun vs hv => by
        simpa using SpellsItem.function false hv
    have hheader := Pads.trailing (SpellsItem (.function f))
      [.wordFn, .name f.name.text, .leftParen] ts
      (f.params.map fun param => [.name param.text]) trailing (.inl rfl) (by
        simpa [headerTokens, parenthesized] using SpellsItem.function trailing h)
    have hall := Pads.trans (v := headerTokens trailing f.name f.params ++ ts) hbody
      (by simpa [headerTokens, parenthesized] using hheader)
    simpa [Part.print, Item.print] using hall
  | @constant name e ts h =>
    exact h.padsForm.within (SpellsItem (.constant name e)) [.wordLet, .name name.text, .equals]
      [.semicolon] fun vs hv => .constant hv

/-- Every spelling of a script is the printed one, padded. -/
theorem Program.SpelledBy.pads {p : Program} {ts : List Token} (h : p.SpelledBy ts) :
    Pads p.SpelledBy p.print ts := by
  obtain ⟨items⟩ := p
  change SpellsItems items ts at h
  induction h with
  | nil => exact .refl
  | @cons item rest ts us hi hr ih =>
    have hprinted : Program.SpelledBy ⟨rest⟩ (Program.print ⟨rest⟩) :=
      Program.print_spelled (Program.SpelledBy.complete (p := ⟨rest⟩) hr)
    have hall := hi.pads.both ih (Program.SpelledBy ⟨item :: rest⟩) [] [] []
      (fun vs hv => by simpa [Program.SpelledBy] using SpellsItems.cons hv hprinted)
      fun vs hv => by simpa [Program.SpelledBy] using SpellsItems.cons hi hv
    simpa [Program.print] using hall

end LandPattern.Script
