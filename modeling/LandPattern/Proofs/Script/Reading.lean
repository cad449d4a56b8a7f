import LandPattern.Proofs.Script.Bare
import LandPattern.Proofs.Script.Spelling

/-!
# Reading spelled expressions

A reader that stands before an operand and reads a spelling of an expression ends up behind an
operand. Operators may still wait for that operand; completing them gives the expression, whatever
comes next. Brackets are read by one argument for all lists with commas.
-/

namespace LandPattern.Script

/-- The words of placed tokens. -/
def words (ts : List Placed) : List Token := ts.map Placed.token

/-- The reader passes over these tokens from one draft to another. -/
inductive Draft.Reaches : Draft → List Placed → Draft → Prop where
  | refl (d : Draft) : Draft.Reaches d [] d
  | step {d next last : Draft} {t : Placed} {ts : List Placed} (h : d.step t = .ok next)
    (hr : Draft.Reaches next ts last) : Draft.Reaches d (t :: ts) last

namespace Draft.Reaches

theorem single {d next : Draft} {t : Placed} (h : d.step t = .ok next) :
    Draft.Reaches d [t] next := .step h (.refl next)

theorem trans {a b c : Draft} {ts us : List Placed} (h : Draft.Reaches a ts b)
    (hb : Draft.Reaches b us c) : Draft.Reaches a (ts ++ us) c := by
  induction h with
  | refl d => exact hb
  | step h _ ih => exact .step h (ih hb)

/-- Reading goes on behind a token that ended something. -/
theorem andThen {a b c : Draft} {ts us : List Placed} {t : Placed}
    (h : Draft.Reaches a (ts ++ [t]) b) (hb : Draft.Reaches b us c) :
    Draft.Reaches a (ts ++ t :: us) c := by
  rw [List.append_cons]
  exact h.trans hb

/-- What was passed over has no further effect on the result. -/
theorem read_append {a b : Draft} {ts : List Placed} (h : Draft.Reaches a ts b)
    (rest : List Placed) : a.read (ts ++ rest) = b.read rest := by
  induction h with
  | refl d => rfl
  | step h _ ih => rw [List.cons_append, Draft.read, h]; exact ih

end Draft.Reaches

/-- A script is read from the tokens that carry meaning. -/
theorem Program.ofTokens_eq_ok_iff {tokens : List Placed} {p : Program} :
    Program.ofTokens tokens = .ok p ↔ Draft.start.read (significant tokens) = .ok p := by
  unfold Program.ofTokens
  dsimp only
  constructor
  · intro h
    split at h
    · rename_i hread
      cases h
      exact hread
    · cases h
    · cases h
  · intro h
    rw [h]

/-- How tight an expression must bind to be the operand of the operator that waits first. -/
def need : List Wait → Nat
  | .unary op _ :: _ => op.level
  | .binary op _ :: _ => op.level + 1
  | _ => 0

theorem need_le (stack : List Wait) : need stack ≤ UnaryOp.neg.level := by
  unfold need
  split
  · rename_i op _ _
    cases op <;> decide
  · rename_i op _ _
    cases op <;> decide
  · exact Nat.zero_le _

theorem need_le_fieldLevel (stack : List Wait) : need stack ≤ fieldLevel :=
  Nat.le_trans (need_le stack) (by decide)

/-- Operators that bind less tight than asked for go on waiting. -/
theorem settle_of_need {stack : List Wait} {k : Nat} (e : Expr) (h : need stack ≤ k)
    (hu : ∀ op : UnaryOp, op.level ≠ k) : settle k stack e = (stack, e) := by
  cases stack with
  | nil => rfl
  | cons w outer =>
    cases w with
    | unary op s =>
      have hk := hu op
      simp only [need] at h
      rw [settle, if_neg (by omega)]
    | binary op left =>
      simp only [need] at h
      rw [settle, if_neg (by omega)]
    | _ => rfl

theorem settle_of_fieldLevel_le {k : Nat} (stack : List Wait) (e : Expr) (h : fieldLevel ≤ k) :
    settle k stack e = (stack, e) := by
  refine settle_of_need e (Nat.le_trans (need_le_fieldLevel stack) h) fun op => ?_
  cases op <;> simp only [UnaryOp.level, fieldLevel] at h ⊢ <;> omega

/-- Nothing waits between two brackets. -/
theorem settle_zero_of_need {stack : List Wait} (e : Expr) (h : need stack = 0) :
    settle 0 stack e = (stack, e) :=
  settle_of_need e (Nat.le_of_eq h) fun op => by cases op <;> decide

/-- The point stands behind the operand `e` that the operators in `stack` wait for. -/
inductive Behind (slot : Slot) : List Wait → Expr → Point → Prop where
  | operator (stack : List Wait) (e : Expr) : Behind slot stack e (.operator slot stack e)
  | argumentName (head : Head) (done : List Argument) (outer : List Wait) (name : Name) :
    Behind slot (.arguments head done none :: outer) (.name name.span name.text)
      (.argumentName slot (.arguments head done none :: outer) name)
  | afterField (stack : List Wait) (object : Expr) (name : Name) :
    Behind slot stack (.field (object.span.cover name.span) object name)
      (.afterField slot stack object name)

/-- A parenthesis here calls what was read, and does not name a method. -/
def Point.Callable : Point → Prop
  | .afterField _ _ _ _ => False
  | _ => True

/-- Behind an operand every token is read alike, except the one that makes a name a keyword and
the one that makes an attribute a method. -/
theorem Behind.step {slot : Slot} {stack : List Wait} {e : Expr} {point : Point}
    (h : Behind slot stack e point) (items : List Item) {t : Placed}
    (hk : t.token = .equals → ∀ head done outer, stack ≠ .arguments head done none :: outer)
    (hc : t.token = .leftParen → point.Callable) :
    Draft.step ⟨items, point⟩ t = stepOperator items slot stack e t := by
  cases h with
  | operator => rfl
  | argumentName head done outer name =>
    have hne : t.token ≠ .equals := fun he => hk he head done outer rfl
    unfold Draft.step
    split <;> simp_all
  | afterField stack object name =>
    have hne : t.token ≠ .leftParen := fun he => hc he
    unfold Draft.step
    split <;> simp_all

/-- Reading the tokens from before an operand leads behind an operand. With the operators that wait
for it, as far as they bind at least as tight as `level`, it makes up the expression. -/
def ReadsAs (items : List Item) (slot : Slot) (stack : List Wait) (ts : List Placed) (level : Nat)
    (e : Expr) : Prop :=
  ∃ (waiting : List Wait) (operand : Expr) (point : Point) (whole : Expr),
    Draft.Reaches ⟨items, .operand slot stack⟩ ts ⟨items, point⟩ ∧
      Behind slot waiting operand point ∧ whole.bare = e.bare ∧
      (∀ k ≤ level, settle k waiting operand = settle k stack whole) ∧
      (calleeLevel ≤ level → point.Callable)

/-- A token that ends an expression, as far as the rest of the script goes. -/
def Token.endsExpression : Token → Bool
  | .comma | .rightParen | .rightBracket | .semicolon | .leftBrace
  | .equals | .plusEquals | .minusEquals | .starEquals | .slashEquals => true
  | _ => false

/-- Behind an operand, the end of the expression completes all that waits for it, up to the bracket
around it. -/
theorem stepOperator_of_endsExpression (items : List Item) (slot : Slot) (stack : List Wait)
    (e : Expr) {t : Placed} (h : t.token.endsExpression = true) :
    stepOperator items slot stack e t =
      match settle 0 stack e with
      | ([], whole) => stepEnd items slot whole t
      | (outer, whole) => stepBracket items slot outer whole t := by
  obtain ⟨token, span⟩ := t
  cases token <;> simp only [Token.endsExpression, Bool.false_eq_true] at h <;> rfl

namespace ReadsAs

variable {items : List Item} {slot : Slot} {stack : List Wait} {ts : List Placed} {level : Nat}
  {e : Expr}

/-- Reading ends behind a bracket, a name or a literal, and nothing waits but what waited before. -/
theorem of_reaches {whole : Expr}
    (h : Draft.Reaches ⟨items, .operand slot stack⟩ ts ⟨items, .operator slot stack whole⟩)
    (hb : whole.bare = e.bare) : ReadsAs items slot stack ts level e :=
  ⟨stack, whole, _, whole, h, .operator stack whole, hb, fun _ _ => rfl, fun _ => trivial⟩

/-- A tight expression is read as it stands. -/
theorem tight (h : ReadsAs items slot stack ts level e) (hl : fieldLevel ≤ level) :
    ∃ point whole, Draft.Reaches ⟨items, .operand slot stack⟩ ts ⟨items, point⟩ ∧
      Behind slot stack whole point ∧ whole.bare = e.bare ∧
      (calleeLevel ≤ level → point.Callable) := by
  obtain ⟨waiting, operand, point, whole, hr, hb, hw, hs, hc⟩ := h
  have hf := hs fieldLevel hl
  rw [settle_of_fieldLevel_le _ _ (Nat.le_refl _), settle_of_fieldLevel_le _ _ (Nat.le_refl _),
    Prod.mk.injEq] at hf
  rw [hf.1, hf.2] at hb
  exact ⟨point, whole, hr, hb, hw, hc⟩

/-- Inside a bracket, a token that ends the expression is read with the whole expression at
hand. -/
theorem bracket (h : ReadsAs items slot stack ts 0 e) (hn : need stack = 0) (hne : stack ≠ []) :
    ∃ whole : Expr, whole.bare = e.bare ∧ ∀ (t : Placed) (next : Draft),
      t.token.endsExpression = true → t.token ≠ .equals →
        stepBracket items slot stack whole t = .ok next →
          Draft.Reaches ⟨items, .operand slot stack⟩ (ts ++ [t]) next := by
  obtain ⟨waiting, operand, point, whole, hr, hb, hw, hs, -⟩ := h
  refine ⟨whole, hw, fun t next ht hk hn' => hr.trans (.single ?_)⟩
  have hp : t.token ≠ .leftParen := fun hp => by rw [hp] at ht; cases ht
  rw [hb.step items (fun he => absurd he hk) (fun he => absurd he hp),
    stepOperator_of_endsExpression _ _ _ _ ht, hs 0 (Nat.le_refl 0), settle_zero_of_need whole hn]
  cases stack with
  | nil => exact absurd rfl hne
  | cons => exact hn'

/-- Outside all brackets, a token that ends the expression is read with the whole expression at
hand. -/
theorem outermost (h : ReadsAs items slot [] ts 0 e) :
    ∃ whole : Expr, whole.bare = e.bare ∧ ∀ (t : Placed) (next : Draft),
      t.token.endsExpression = true → stepEnd items slot whole t = .ok next →
        Draft.Reaches ⟨items, .operand slot []⟩ (ts ++ [t]) next := by
  obtain ⟨waiting, operand, point, whole, hr, hb, hw, hs, -⟩ := h
  refine ⟨whole, hw, fun t next ht hn => hr.trans (.single ?_)⟩
  have hz : settle 0 waiting operand = ([], whole) := hs 0 (Nat.le_refl 0)
  have hp : t.token ≠ .leftParen := fun hp => by rw [hp] at ht; cases ht
  have hk : ∀ head done outer, waiting ≠ .arguments head done none :: outer := by
    intro head done outer he
    rw [he] at hz
    simp [settle] at hz
  rw [hb.step items (fun _ => hk) (fun he => absurd he hp),
    stepOperator_of_endsExpression _ _ _ _ ht, hz]
  exact hn

end ReadsAs

theorem words_eq_cons {ts : List Placed} {w : Token} {rest : List Token}
    (h : words ts = w :: rest) : ∃ t us, ts = t :: us ∧ t.token = w ∧ words us = rest :=
  List.map_eq_cons_iff.mp h

theorem words_eq_append {ts : List Placed} {us vs : List Token} (h : words ts = us ++ vs) :
    ∃ as bs, ts = as ++ bs ∧ words as = us ∧ words bs = vs :=
  List.map_eq_append_iff.mp h

theorem words_eq_singleton {ts : List Placed} {w : Token} (h : words ts = [w]) :
    ∃ t, ts = [t] ∧ t.token = w := by
  obtain ⟨t, us, rfl, ht, hu⟩ := words_eq_cons h
  exact ⟨t, by rw [List.map_eq_nil_iff.mp hu], ht⟩

theorem words_eq_enclosed {ts : List Placed} {first last : Token} {us : List Token}
    (h : words ts = first :: us ++ [last]) :
    ∃ o vs c, ts = o :: (vs ++ [c]) ∧ o.token = first ∧ words vs = us ∧ c.token = last := by
  obtain ⟨o, rest, rfl, ho, hrest⟩ := words_eq_cons h
  obtain ⟨vs, cs, rfl, hv, hcs⟩ := words_eq_append hrest
  obtain ⟨c, rfl, hc⟩ := words_eq_singleton hcs
  exact ⟨o, vs, c, rfl, ho, hv, hc⟩

/-- A list in brackets while it is read: the draft before an item, with the finished items in
reverse, the draft behind the closing bracket, and that bracket. -/
structure Listing (α : Type) where
  opened : List α → Draft
  closed : List α → Placed → Draft
  close : Token
  /-- The bracket may close behind an item that comes after these. -/
  whole : List α → Prop

namespace Listing

variable {α κ : Type} (l : Listing α) (key : α → κ)

/-- The tokens are read as an item with the same key as `a`, wherever it stands in the list. -/
def ReadsItem (a : α) (ts : List Token) : Prop :=
  ∀ (done : List α) (us : List Placed), words us = ts → ∃ b, key b = key a ∧
    (∀ c : Placed, c.token = .comma →
      Draft.Reaches (l.opened done) (us ++ [c]) (l.opened (b :: done))) ∧
    (∀ c : Placed, c.token = l.close → l.whole done →
      Draft.Reaches (l.opened done) (us ++ [c]) (l.closed (b :: done) c))

/-- Items with commas between them are read one after the other, up to the bracket. -/
theorem reaches (hempty : ∀ done (c : Placed), c.token = l.close →
      Draft.Reaches (l.opened done) [c] (l.closed done c))
    (hwhole : ∀ b done, l.whole (b :: done)) (trailing : Bool) {items : List (α × List Token)}
    (hi : ∀ p ∈ items, l.ReadsItem key p.1 p.2) (done : List α)
    (hs : items.length = 1 → trailing = true ∨ l.whole done) {us : List Placed}
    (hu : words us = commas trailing (items.map Prod.snd)) {c : Placed} (hc : c.token = l.close) :
    ∃ found : List α, found.map key = (items.map Prod.fst).map key ∧
      Draft.Reaches (l.opened done) (us ++ [c]) (l.closed (found.reverse ++ done) c) := by
  induction items generalizing done us with
  | nil =>
    have hn : us = [] := List.map_eq_nil_iff.mp hu
    exact ⟨[], rfl, by rw [hn]; exact hempty done c hc⟩
  | cons p rest ih =>
    obtain ⟨a, ts⟩ := p
    have ha := hi (a, ts) (List.mem_cons_self ..)
    have hrest := fun p hp => hi p (List.mem_cons_of_mem _ hp)
    cases rest with
    | nil =>
      cases trailing with
      | false =>
        obtain ⟨b, hb, -, hclose⟩ := ha done us (by simpa [commas] using hu)
        have hw : l.whole done := by simpa using hs rfl
        exact ⟨[b], by simp [hb], hclose c hc hw⟩
      | true =>
        obtain ⟨vs, ks, rfl, hv, hk⟩ := words_eq_append (by simpa [commas] using hu)
        obtain ⟨k, rfl, hcomma⟩ := words_eq_singleton hk
        obtain ⟨b, hb, hnext, -⟩ := ha done vs hv
        exact ⟨[b], by simp [hb], (hnext k hcomma).trans (hempty (b :: done) c hc)⟩
    | cons q more =>
      obtain ⟨vs, ks, rfl, hv, hk⟩ := words_eq_append (by simpa [commas] using hu)
      obtain ⟨k, ws, rfl, hcomma, hw⟩ := words_eq_cons hk
      obtain ⟨b, hb, hnext, -⟩ := ha done vs hv
      obtain ⟨found, hf, hr⟩ := ih hrest (b :: done)
        (fun _ => Or.inr (hwhole b done)) (by simpa [commas] using hw)
      refine ⟨b :: found, by rw [List.map_cons, hf, hb]; rfl, ?_⟩
      have hboth := (hnext k hcomma).andThen hr
      simpa using hboth

end Listing

/-- Wherever an operand of this tightness may stand, the tokens are read as the expression. -/
def Readable (level : Nat) (e : Expr) (ts : List Token) : Prop :=
  ∀ (items : List Item) (slot : Slot) (stack : List Wait) (us : List Placed),
    words us = ts → need stack ≤ level → ReadsAs items slot stack us level e

/-- The items of a list in brackets. -/
def Listing.list (items : List Item) (slot : Slot) (stack : List Wait) (start : Span) :
    Listing Expr where
  opened done := ⟨items, .operand slot (.list start done :: stack)⟩
  closed done c := ⟨items, .operator slot stack (.list (start.cover c.span) done.reverse)⟩
  close := .rightBracket
  whole _ := True

/-- The items of a tuple; one item alone would be an expression in parentheses. -/
def Listing.tuple (items : List Item) (slot : Slot) (stack : List Wait) (start : Span) :
    Listing Expr where
  opened done := ⟨items, .operand slot (.group start done :: stack)⟩
  closed done c := ⟨items, .operator slot stack (.tuple (start.cover c.span) done.reverse)⟩
  close := .rightParen
  whole done := done ≠ []

/-- The arguments of a call. -/
def Listing.arguments (items : List Item) (slot : Slot) (stack : List Wait) (head : Head) :
    Listing Argument where
  opened done := ⟨items, .operand slot (.arguments head done none :: stack)⟩
  closed done c := ⟨items, .operator slot stack (head.apply done.reverse c.span)⟩
  close := .rightParen
  whole _ := True

section Brackets

variable (items : List Item) (slot : Slot) (stack : List Wait) {e : Expr} {ts : List Token}

theorem Readable.listItem (h : Readable 0 e ts) (start : Span) :
    (Listing.list items slot stack start).ReadsItem Expr.bare e ts := by
  intro done us hu
  obtain ⟨whole, hb, hr⟩ :=
    (h items slot (.list start done :: stack) us hu (Nat.le_refl 0)).bracket rfl (by simp)
  refine ⟨whole, hb, fun c hc => hr c _ (by rw [hc]; rfl) (by rw [hc]; nofun) ?_,
    fun c hc _ => hr c _ (by rw [hc]; rfl) (by rw [hc]; nofun) ?_⟩
  · simp only [stepBracket, hc]
    rfl
  · have hc : c.token = .rightBracket := hc
    simp only [stepBracket, hc]
    rfl

theorem Readable.tupleItem (h : Readable 0 e ts) (start : Span) :
    (Listing.tuple items slot stack start).ReadsItem Expr.bare e ts := by
  intro done us hu
  obtain ⟨whole, hb, hr⟩ :=
    (h items slot (.group start done :: stack) us hu (Nat.le_refl 0)).bracket rfl (by simp)
  refine ⟨whole, hb, fun c hc => hr c _ (by rw [hc]; rfl) (by rw [hc]; nofun) ?_,
    fun c hc hw => hr c _ (by rw [hc]; rfl) (by rw [hc]; nofun) ?_⟩
  · simp only [stepBracket, hc]
    rfl
  · have hc : c.token = .rightParen := hc
    cases done with
    | nil => exact absurd rfl hw
    | cons =>
      simp only [stepBracket, hc]
      rfl

/-- The value of an argument is read up to a comma or the bracket that closes the arguments, with
or without a keyword before it. -/
theorem Readable.argumentValue (h : Readable 0 e ts) (head : Head) (done : List Argument)
    (keyword : Option Name) {us : List Placed} (hu : words us = ts) :
    ∃ whole : Expr, whole.bare = e.bare ∧
      (∀ c : Placed, c.token = .comma →
        Draft.Reaches ⟨items, .operand slot (.arguments head done keyword :: stack)⟩ (us ++ [c])
          ((Listing.arguments items slot stack head).opened
            (stepBracket.argument whole keyword :: done))) ∧
      (∀ c : Placed, c.token = .rightParen →
        Draft.Reaches ⟨items, .operand slot (.arguments head done keyword :: stack)⟩ (us ++ [c])
          ((Listing.arguments items slot stack head).closed
            (stepBracket.argument whole keyword :: done) c)) := by
  obtain ⟨whole, hb, hr⟩ := (h items slot (.arguments head done keyword :: stack) us hu
    (Nat.le_refl 0)).bracket rfl (by simp)
  refine ⟨whole, hb, fun c hc => hr c _ (by rw [hc]; rfl) (by rw [hc]; nofun) ?_,
    fun c hc => hr c _ (by rw [hc]; rfl) (by rw [hc]; nofun) ?_⟩
  · simp only [stepBracket, hc]
    rfl
  · simp only [stepBracket, hc]
    rfl

theorem Readable.argumentItem {a : Argument} (h : Readable 0 a.value ts) (head : Head) :
    (Listing.arguments items slot stack head).ReadsItem Argument.bare a (a.tokens ts) := by
  intro done us hu
  cases a with
  | positional value =>
    obtain ⟨whole, hb, hcomma, hclose⟩ :=
      Readable.argumentValue items slot stack h head done none hu
    refine ⟨.positional whole, ?_, hcomma, fun c hc _ => hclose c hc⟩
    rw [Argument.bare, Argument.bare, hb, Argument.value]
  | keyword name value =>
    obtain ⟨n, ks, rfl, hn, hk⟩ := words_eq_cons hu
    obtain ⟨k, vs, rfl, hk, hv⟩ := words_eq_cons hk
    obtain ⟨whole, hb, hcomma, hclose⟩ := Readable.argumentValue items slot stack h head done
      (some ⟨name.text, n.span⟩) hv
    have hname : Draft.step ⟨items, .operand slot (.arguments head done none :: stack)⟩ n =
        .ok ⟨items, .argumentName slot (.arguments head done none :: stack)
          ⟨name.text, n.span⟩⟩ := by
      simp only [Draft.step, stepOperand, hn]
    have hequals : Draft.step ⟨items, .argumentName slot (.arguments head done none :: stack)
          ⟨name.text, n.span⟩⟩ k =
        .ok ⟨items, .operand slot (.arguments head done (some ⟨name.text, n.span⟩) :: stack)⟩ := by
      simp only [Draft.step, hk]
    refine ⟨.keyword ⟨name.text, n.span⟩ whole, ?_,
      fun c hc => .step hname (.step hequals (hcomma c hc)),
      fun c hc _ => .step hname (.step hequals (hclose c hc))⟩
    rw [Argument.bare, Argument.bare, hb, Argument.value]
    rfl

/-- The arguments of a call are read up to the bracket that closes them. -/
theorem reaches_arguments {trailing : Bool} {args : List (Argument × List Token)}
    (h : ∀ p ∈ args, Readable 0 p.1.value p.2) (head : Head) {us : List Placed}
    (hu : words us = commas trailing (args.map fun p => p.1.tokens p.2)) {c : Placed}
    (hc : c.token = .rightParen) :
    ∃ found : List Argument, found.map Argument.bare = (args.map Prod.fst).map Argument.bare ∧
      Draft.Reaches ⟨items, .operand slot (.arguments head [] none :: stack)⟩ (us ++ [c])
        ⟨items, .operator slot stack (head.apply found c.span)⟩ := by
  have hi : ∀ p ∈ args.map (fun p => (p.1, p.1.tokens p.2)),
      (Listing.arguments items slot stack head).ReadsItem Argument.bare p.1 p.2 := by
    intro p hp
    obtain ⟨q, hq, rfl⟩ := List.mem_map.mp hp
    exact (h q hq).argumentItem items slot stack head
  have hempty : ∀ done (c : Placed), c.token = .rightParen →
      Draft.Reaches ((Listing.arguments items slot stack head).opened done) [c]
        ((Listing.arguments items slot stack head).closed done c) := by
    intro done c hc
    refine .single ?_
    simp only [Listing.arguments, Draft.step, stepOperand, closeEmpty, Token.literal?, hc]
  obtain ⟨found, hf, hr⟩ := Listing.reaches _ Argument.bare hempty (fun _ _ => trivial) trailing
    hi [] (fun _ => Or.inr trivial) (by rw [hu, List.map_map]; rfl) hc
  refine ⟨found, by simpa [Function.comp_def] using hf, ?_⟩
  simpa [Listing.arguments] using hr

end Brackets

namespace Readable

variable {level : Nat} {e : Expr} {ts : List Token}

theorem literal {t : Token} {s : Span} (h : t.literal? s = some e) : Readable level e [t] := by
  intro items slot stack us hu _
  obtain ⟨p, rfl, rfl⟩ := words_eq_singleton hu
  obtain ⟨token, span⟩ := p
  cases token <;> simp only [Token.literal?, Option.some.injEq, reduceCtorEq] at h <;> subst h
  case name text =>
    by_cases hn : ∃ head done outer, stack = .arguments head done none :: outer
    · obtain ⟨head, done, outer, rfl⟩ := hn
      exact ⟨_, _, _, .name span text, .single rfl, .argumentName head done outer ⟨text, span⟩,
        rfl, fun _ _ => rfl, fun _ => trivial⟩
    · have hname : Draft.step ⟨items, .operand slot stack⟩ ⟨.name text, span⟩ =
          .ok ⟨items, .operator slot stack (.name span text)⟩ := by
        simp only [Draft.step, stepOperand]
        split
        · exact absurd ⟨_, _, _, rfl⟩ hn
        · rfl
      exact .of_reaches (.single hname) rfl
  all_goals exact .of_reaches (.single rfl) rfl

theorem group (h : Readable 0 e ts) : Readable level e (parenthesized ts) := by
  intro items slot stack us hu _
  obtain ⟨o, vs, c, rfl, ho, hv, hc⟩ := words_eq_enclosed hu
  have hopen : Draft.step ⟨items, .operand slot stack⟩ o =
      .ok ⟨items, .operand slot (.group o.span [] :: stack)⟩ := by
    simp only [Draft.step, stepOperand, ho]
  obtain ⟨whole, hb, hr⟩ :=
    (h items slot (.group o.span [] :: stack) vs hv (Nat.le_refl 0)).bracket rfl (by simp)
  have hr := hr c _ (by rw [hc]; rfl) (by rw [hc]; nofun) (by simp only [stepBracket, hc]; rfl)
  exact .of_reaches (.step hopen hr) (by rw [Expr.bare_withSpan, hb])

theorem list {s : Span} {items : List (Expr × List Token)} (trailing : Bool)
    (h : ∀ p ∈ items, Readable 0 p.1 p.2) :
    Readable level (.list s (items.map Prod.fst))
      (.leftBracket :: commas trailing (items.map Prod.snd) ++ [.rightBracket]) := by
  intro done slot stack us hu _
  obtain ⟨o, vs, c, rfl, ho, hv, hc⟩ := words_eq_enclosed hu
  have hopen : Draft.step ⟨done, .operand slot stack⟩ o =
      .ok ⟨done, .operand slot (.list o.span [] :: stack)⟩ := by
    simp only [Draft.step, stepOperand, ho]
  have hempty : ∀ found (c : Placed), c.token = .rightBracket →
      Draft.Reaches ((Listing.list done slot stack o.span).opened found) [c]
        ((Listing.list done slot stack o.span).closed found c) := by
    intro found c hc
    refine .single ?_
    simp only [Listing.list, Draft.step, stepOperand, closeEmpty, Token.literal?, hc]
  obtain ⟨found, hf, hr⟩ := Listing.reaches _ Expr.bare hempty (fun _ _ => trivial) trailing
    (fun p hp => (h p hp).listItem done slot stack o.span) [] (fun _ => Or.inr trivial) hv hc
  refine .of_reaches (.step hopen hr) ?_
  simp only [Expr.bare, bareItems_eq_map, List.append_nil, List.reverse_reverse, hf]

theorem tuple {s : Span} {items : List (Expr × List Token)} (trailing : Bool)
    (h : ∀ p ∈ items, Readable 0 p.1 p.2) (single : items.length = 1 → trailing = true) :
    Readable level (.tuple s (items.map Prod.fst))
      (parenthesized (commas trailing (items.map Prod.snd))) := by
  intro done slot stack us hu _
  obtain ⟨o, vs, c, rfl, ho, hv, hc⟩ := words_eq_enclosed hu
  have hopen : Draft.step ⟨done, .operand slot stack⟩ o =
      .ok ⟨done, .operand slot (.group o.span [] :: stack)⟩ := by
    simp only [Draft.step, stepOperand, ho]
  have hempty : ∀ found (c : Placed), c.token = .rightParen →
      Draft.Reaches ((Listing.tuple done slot stack o.span).opened found) [c]
        ((Listing.tuple done slot stack o.span).closed found c) := by
    intro found c hc
    refine .single ?_
    simp only [Listing.tuple, Draft.step, stepOperand, closeEmpty, Token.literal?, hc]
  obtain ⟨found, hf, hr⟩ := Listing.reaches _ Expr.bare hempty (fun b found => by simp [Listing.tuple])
    trailing (fun p hp => (h p hp).tupleItem done slot stack o.span) []
    (fun hl => Or.inl (single hl)) hv hc
  refine .of_reaches (.step hopen hr) ?_
  simp only [Expr.bare, bareItems_eq_map, List.append_nil, List.reverse_reverse, hf]

theorem unary {s : Span} {op : UnaryOp} (fits : level ≤ op.level) (h : Readable op.level e ts) :
    Readable level (.unary s op e) (op.token :: ts) := by
  intro items slot stack us hu hn
  obtain ⟨o, vs, rfl, ho, hv⟩ := words_eq_cons hu
  have hopen : Draft.step ⟨items, .operand slot stack⟩ o =
      .ok ⟨items, .operand slot (.unary op o.span :: stack)⟩ := by
    cases op with
    | neg => simp only [Draft.step, stepOperand, UnaryOp.token, ho]
    | not =>
      have hnot : allowsNot stack = true := by
        have hle := Nat.le_trans hn fits
        unfold allowsNot
        split <;> simp only [need, decide_eq_true_eq] at hle ⊢ <;> omega
      simp only [Draft.step, stepOperand, UnaryOp.token, ho, hnot, if_true]
  obtain ⟨waiting, operand, point, whole, hr, hb, hw, hs, -⟩ :=
    h items slot (.unary op o.span :: stack) vs hv (Nat.le_refl _)
  refine ⟨waiting, operand, point, .unary (o.span.cover whole.span) op whole, .step hopen hr, hb,
    ?_, fun k hk => ?_, fun hc => ?_⟩
  · simp only [Expr.bare, hw]
  · rw [hs k (Nat.le_trans hk fits), settle, if_pos (Nat.le_trans hk fits)]
  · have hlt : op.level < calleeLevel := by cases op <;> decide
    omega

theorem binary {s : Span} {op : BinaryOp} {left right : Expr} {ls rs : List Token}
    (fits : level ≤ op.level) (hl : Readable op.leftLevel left ls)
    (hr : Readable (op.level + 1) right rs) :
    Readable level (.binary s op left right) (ls ++ op.token :: rs) := by
  intro items slot stack us hu hn
  obtain ⟨vs, os, rfl, hv, hu⟩ := words_eq_append hu
  obtain ⟨o, ws, rfl, ho, hw⟩ := words_eq_cons hu
  have hleft := Nat.le_trans (Nat.le_trans hn fits) op.level_le_leftLevel
  obtain ⟨waiting, operand, point, l, hrl, hb, hbl, hsl, -⟩ := hl items slot stack vs hv hleft
  -- The operands before the operator are complete, and what waits now binds less tight.
  have hsettle : settle op.leftLevel waiting operand = (stack, l) := by
    rw [hsl _ (Nat.le_refl _)]
    exact settle_of_need l hleft fun u => by cases u <;> cases op <;> decide
  have hbeside : op.level = comparisonLevel → ∀ other left outer,
      stack = .binary other left :: outer → other.level ≠ comparisonLevel := by
    intro he other left outer hst
    rw [hst] at hn
    simp only [need] at hn
    omega
  have hstep : Draft.step ⟨items, point⟩ o = .ok ⟨items, .operand slot (.binary op l :: stack)⟩ := by
    rw [hb.step items (by rw [ho]; cases op <;> nofun) (by rw [ho]; cases op <;> nofun)]
    have hbin : stepOperator items slot waiting operand o =
        stepBinary items slot waiting operand op := by
      obtain ⟨token, span⟩ := o
      simp only at ho
      rw [ho]
      cases op <;> rfl
    have hlevel : (if (op.level != comparisonLevel) = true then op.level else op.level + 1) =
        op.leftLevel := by
      cases op <;> rfl
    rw [hbin, stepBinary]
    simp only [hlevel, hsettle]
    rw [if_neg]
    intro hrefused
    obtain ⟨hcompares, hfound⟩ := (Bool.and_eq_true _ _).mp hrefused
    have he : op.level = comparisonLevel := by simpa using hcompares
    split at hfound
    · rename_i other left outer
      exact hbeside he other left outer rfl (by simpa using hfound)
    · cases hfound
  obtain ⟨waiting, operand, point, r, hrr, hb, hbr, hsr, -⟩ :=
    hr items slot (.binary op l :: stack) ws hw (Nat.le_refl _)
  refine ⟨waiting, operand, point, .binary (l.span.cover r.span) op l r,
    hrl.trans (.step hstep hrr), hb, ?_, fun k hk => ?_, fun hc => ?_⟩
  · simp only [Expr.bare, hbl, hbr]
  · rw [hsr k (by omega), settle, if_pos (Nat.le_trans hk fits)]
  · have hlt : op.level < calleeLevel := by cases op <;> decide
    omega

theorem call {s : Span} {callee : Expr} {args : List (Argument × List Token)} (trailing : Bool)
    (hc : Readable calleeLevel callee ts) (h : ∀ p ∈ args, Readable 0 p.1.value p.2) :
    Readable level (.call s callee (args.map Prod.fst))
      (ts ++ parenthesized (commas trailing (args.map fun p => p.1.tokens p.2))) := by
  intro items slot stack us hu hn
  obtain ⟨as, bs, rfl, ha, hb⟩ := words_eq_append hu
  obtain ⟨o, vs, c, rfl, ho, hv, hclose⟩ := words_eq_enclosed hb
  obtain ⟨point, f, hr, hbehind, hf, hcall⟩ :=
    (hc items slot stack as ha (Nat.le_trans (need_le_fieldLevel stack) (by decide))).tight (by decide)
  have hopen : Draft.step ⟨items, point⟩ o =
      .ok ⟨items, .operand slot (.arguments (.call f) [] none :: stack)⟩ := by
    rw [hbehind.step items (by rw [ho]; nofun) (fun _ => hcall (Nat.le_refl _))]
    simp only [stepOperator, ho]
  obtain ⟨found, hfound, hargs⟩ := reaches_arguments items slot stack h (.call f) hv hclose
  refine .of_reaches (hr.trans (.step hopen hargs)) ?_
  simp only [Head.apply, Expr.bare, bareArguments_eq_map, hf, hfound]

theorem field {s : Span} {object : Expr} {name : Name} (fits : level ≤ fieldLevel)
    (h : Readable fieldLevel object ts) :
    Readable level (.field s object name) (ts ++ [.dot, .name name.text]) := by
  intro items slot stack us hu hn
  obtain ⟨as, bs, rfl, ha, hb⟩ := words_eq_append hu
  obtain ⟨d, ks, rfl, hd, hk⟩ := words_eq_cons hb
  obtain ⟨k, rfl, hname⟩ := words_eq_singleton hk
  obtain ⟨point, o, hr, hbehind, ho, -⟩ :=
    (h items slot stack as ha (need_le_fieldLevel stack)).tight (Nat.le_refl _)
  have hdot : Draft.step ⟨items, point⟩ d = .ok ⟨items, .fieldName slot stack o⟩ := by
    rw [hbehind.step items (by rw [hd]; nofun) (by rw [hd]; nofun)]
    simp only [stepOperator, hd]
  have hfield : Draft.step ⟨items, .fieldName slot stack o⟩ k =
      .ok ⟨items, .afterField slot stack o ⟨name.text, k.span⟩⟩ := by
    simp only [Draft.step, hname]
  refine ⟨stack, _, _, _, hr.trans (.step hdot (.single hfield)),
    .afterField stack o ⟨name.text, k.span⟩, ?_, fun _ _ => rfl, fun hc => ?_⟩
  · simp only [Expr.bare, ho, Name.bare]
  · have hlt : fieldLevel < calleeLevel := by decide
    omega

theorem method {s : Span} {receiver : Expr} {name : Name} {args : List (Argument × List Token)}
    (trailing : Bool) (hc : Readable fieldLevel receiver ts)
    (h : ∀ p ∈ args, Readable 0 p.1.value p.2) :
    Readable level (.method s receiver name (args.map Prod.fst))
      (ts ++ .dot :: .name name.text ::
        parenthesized (commas trailing (args.map fun p => p.1.tokens p.2))) := by
  intro items slot stack us hu hn
  obtain ⟨as, bs, rfl, ha, hb⟩ := words_eq_append hu
  obtain ⟨d, ks, rfl, hd, hk⟩ := words_eq_cons hb
  obtain ⟨k, bs, rfl, hname, hbs⟩ := words_eq_cons hk
  obtain ⟨o, vs, c, rfl, ho, hv, hclose⟩ := words_eq_enclosed hbs
  obtain ⟨point, r, hr, hbehind, hrb, -⟩ :=
    (hc items slot stack as ha (need_le_fieldLevel stack)).tight (Nat.le_refl _)
  have hdot : Draft.step ⟨items, point⟩ d = .ok ⟨items, .fieldName slot stack r⟩ := by
    rw [hbehind.step items (by rw [hd]; nofun) (by rw [hd]; nofun)]
    simp only [stepOperator, hd]
  have hmethod : Draft.step ⟨items, .fieldName slot stack r⟩ k =
      .ok ⟨items, .afterField slot stack r ⟨name.text, k.span⟩⟩ := by
    simp only [Draft.step, hname]
  have hopen : Draft.step ⟨items, .afterField slot stack r ⟨name.text, k.span⟩⟩ o =
      .ok ⟨items, .operand slot (.arguments (.method r ⟨name.text, k.span⟩) [] none :: stack)⟩ := by
    simp only [Draft.step, ho]
  obtain ⟨found, hfound, hargs⟩ :=
    reaches_arguments items slot stack h (.method r ⟨name.text, k.span⟩) hv hclose
  refine .of_reaches (hr.trans (.step hdot (.step hmethod (.step hopen hargs)))) ?_
  simp only [Head.apply, Expr.bare, bareArguments_eq_map, hrb, hfound, Name.bare]

theorem index {s : Span} {object position : Expr} {ps : List Token}
    (ho : Readable fieldLevel object ts) (hp : Readable 0 position ps) :
    Readable level (.index s object position)
      (ts ++ .leftBracket :: ps ++ [.rightBracket]) := by
  intro items slot stack us hu hn
  rw [List.append_assoc] at hu
  obtain ⟨as, bs, rfl, ha, hb⟩ := words_eq_append hu
  obtain ⟨b, vs, c, rfl, hopens, hv, hclose⟩ := words_eq_enclosed hb
  obtain ⟨point, o, hr, hbehind, hob, -⟩ :=
    (ho items slot stack as ha (need_le_fieldLevel stack)).tight (Nat.le_refl _)
  have hopen : Draft.step ⟨items, point⟩ b = .ok ⟨items, .operand slot (.index o :: stack)⟩ := by
    rw [hbehind.step items (by rw [hopens]; nofun) (by rw [hopens]; nofun)]
    simp only [stepOperator, hopens]
  obtain ⟨p, hpb, hrp⟩ :=
    (hp items slot (.index o :: stack) vs hv (Nat.le_refl 0)).bracket rfl (by simp)
  have hrp := hrp c _ (by rw [hclose]; rfl) (by rw [hclose]; nofun)
    (by simp only [stepBracket, hclose]; rfl)
  refine .of_reaches (hr.trans (.step hopen hrp)) ?_
  simp only [Expr.bare, hob, hpb]

end Readable

/-- Every spelling of an expression is read as that expression. -/
theorem Spells.readable {level : Nat} {e : Expr} {ts : List Token} (h : Spells level e ts) :
    Readable level e ts := by
  induction h with
  | literal h => exact .literal h
  | group _ ih => exact .group ih
  | list trailing _ ih => exact .list trailing ih
  | tuple trailing _ single ih => exact .tuple trailing ih single
  | unary fits _ ih => exact .unary fits ih
  | binary fits _ _ ihl ihr => exact .binary fits ihl ihr
  | call trailing _ _ ihc ih => exact .call trailing ihc ih
  | method trailing _ _ ihr ih => exact .method trailing ihr ih
  | field fits _ ih => exact .field fits ih
  | index _ _ iho ihp => exact .index iho ihp

end LandPattern.Script
