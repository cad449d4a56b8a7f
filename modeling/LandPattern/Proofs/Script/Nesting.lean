import LandPattern.Proofs.Script.Accepting
import LandPattern.Proofs.Script.Heights
import LandPattern.Script.WellFormed

/-!
# Nesting of brackets

What the bracket check measures. Each bracket of an accepted script opens one level for what stands
inside it, so blocks inside one another are bounded by the limit on brackets.
-/

namespace LandPattern.Script

/-- How many blocks lie inside one another in a part of the body of a function. -/
def Part.height : Part → Nat
  | .statement s => s.height
  | .statements rest => statementHeight rest
  | .block b => b.height
  | .branches rest otherwise => max (branchHeight rest) (otherwiseHeight otherwise)

/-- Whether a token opens or closes a level. -/
def Token.isBracket (t : Token) : Bool := t.isOpening || t.isClosing

/-- The level after some tokens, unless one of them opens a level beyond the limit. -/
def levelAfter (limit level : Nat) : List Token → Option Nat
  | [] => some level
  | t :: rest =>
    if t.isOpening then
      if limit < level + 1 then none else levelAfter limit (level + 1) rest
    else if t.isClosing then levelAfter limit (level - 1) rest
    else levelAfter limit level rest

theorem levelAfter_append (limit level : Nat) (ts us : List Token) :
    levelAfter limit level (ts ++ us) =
      (levelAfter limit level ts).bind fun middle => levelAfter limit middle us := by
  induction ts generalizing level with
  | nil => rfl
  | cons t rest ih =>
    simp only [List.cons_append, levelAfter]
    split
    · split
      · rfl
      · exact ih (level + 1)
    · split
      · exact ih (level - 1)
      · exact ih level

/-- The bracket check passes over the tokens that carry meaning, and looks at no others. -/
theorem tooDeepBracket?_eq_none_iff (limit level : Nat) (tokens : List Placed) :
    tooDeepBracket? limit level tokens = none ↔
      (levelAfter limit level (words (significant tokens))).isSome := by
  induction tokens generalizing level with
  | nil => exact ⟨fun _ => rfl, fun _ => rfl⟩
  | cons t rest ih =>
    cases htrivia : t.token.isTrivia with
    | true =>
      have hopening : t.token.isOpening = false := by
        cases ht : t.token <;> rw [ht] at htrivia <;> first | rfl | cases htrivia
      have hclosing : t.token.isClosing = false := by
        cases ht : t.token <;> rw [ht] at htrivia <;> first | rfl | cases htrivia
      have hrest : significant (t :: rest) = significant rest := by
        simp [significant, htrivia]
      rw [hrest, ← ih level, tooDeepBracket?, hopening, hclosing]
      simp
    | false =>
      have hrest : words (significant (t :: rest)) = t.token :: words (significant rest) := by
        simp [significant, htrivia, words]
      rw [hrest, tooDeepBracket?, levelAfter]
      split
      · split
        · simp
        · exact ih (level + 1)
      · split
        · exact ih (level - 1)
        · exact ih level

/-- The tokens close what they open, and open exactly so many levels inside one another. -/
def Nested (inner : Nat) (ts : List Token) : Prop :=
  ∀ limit level, level ≤ limit →
    levelAfter limit level ts = if level + inner ≤ limit then some level else none

/-- The tokens close what they open, and open at least so many levels inside one another. -/
def Balanced (least : Nat) (ts : List Token) : Prop := ∃ inner, least ≤ inner ∧ Nested inner ts

namespace Nested

variable {inner other : Nat} {ts us : List Token}

theorem nil : Nested 0 [] := fun limit level hle => by
  rw [levelAfter, if_pos (show level + 0 ≤ limit from hle)]

theorem append (h : Nested inner ts) (ho : Nested other us) :
    Nested (max inner other) (ts ++ us) := by
  intro limit level hle
  rw [levelAfter_append, h limit level hle]
  by_cases hfirst : level + inner ≤ limit
  · rw [if_pos hfirst, Option.bind_some, ho limit level hle]
    by_cases hsecond : level + other ≤ limit
    · rw [if_pos hsecond, if_pos (by omega)]
    · rw [if_neg hsecond, if_neg (by omega)]
  · rw [if_neg hfirst, Option.bind_none, if_neg (by omega)]

theorem plain {t : Token} (h : t.isBracket = false) : Nested 0 [t] := by
  intro limit level hle
  obtain ⟨ho, hc⟩ := Bool.or_eq_false_iff.1 h
  rw [levelAfter, ho, hc, if_pos (show level + 0 ≤ limit from hle)]
  simp [levelAfter]

/-- A pair of brackets is one level for what stands between them. -/
theorem wrap {opening closing : Token} (ho : opening.isOpening = true)
    (hn : closing.isOpening = false) (hc : closing.isClosing = true) (h : Nested inner ts) :
    Nested (inner + 1) (opening :: ts ++ [closing]) := by
  intro limit level hle
  rw [List.cons_append, levelAfter, ho, if_pos rfl]
  by_cases hroom : limit < level + 1
  · rw [if_pos hroom, if_neg (by omega)]
  · rw [if_neg hroom, levelAfter_append, h limit (level + 1) (by omega)]
    by_cases hinner : level + 1 + inner ≤ limit
    · rw [if_pos hinner, Option.bind_some, if_pos (by omega), levelAfter, hn, hc]
      simp [levelAfter]
    · rw [if_neg hinner, Option.bind_none, if_neg (by omega)]

end Nested

namespace Balanced

variable {least other : Nat} {ts us : List Token}

theorem nil : Balanced 0 [] := ⟨0, Nat.le_refl 0, .nil⟩

theorem weaken (h : Balanced least ts) (hle : other ≤ least) : Balanced other ts :=
  h.elim fun inner hinner => ⟨inner, Nat.le_trans hle hinner.1, hinner.2⟩

theorem append (h : Balanced least ts) (ho : Balanced other us) :
    Balanced (max least other) (ts ++ us) := by
  obtain ⟨inner, hinner, hts⟩ := h
  obtain ⟨another, hanother, hus⟩ := ho
  exact ⟨max inner another, by omega, hts.append hus⟩

/-- Behind and before other balanced tokens there are at least as many levels. -/
theorem left (h : Balanced least ts) (ho : Balanced other us) : Balanced least (ts ++ us) :=
  (h.append ho).weaken (Nat.le_max_left _ _)

theorem right (ho : Balanced other ts) (h : Balanced least us) : Balanced least (ts ++ us) :=
  (ho.append h).weaken (Nat.le_max_right _ _)

theorem plain {t : Token} (ht : t.isBracket = false) : Balanced 0 [t] :=
  ⟨0, Nat.le_refl 0, .plain ht⟩

theorem cons {t : Token} (h : Balanced least ts) (ht : t.isBracket = false) :
    Balanced least (t :: ts) := right (plain ht) h

theorem wrap {opening closing : Token} (ho : opening.isOpening = true)
    (hn : closing.isOpening = false) (hc : closing.isClosing = true) (h : Balanced least ts) :
    Balanced (least + 1) (opening :: ts ++ [closing]) := by
  obtain ⟨inner, hinner, hts⟩ := h
  exact ⟨inner + 1, by omega, hts.wrap ho hn hc⟩

theorem parenthesized (h : Balanced 0 ts) : Balanced 0 (parenthesized ts) :=
  (wrap rfl rfl rfl h).weaken (Nat.zero_le _)

theorem bracketed (h : Balanced 0 ts) : Balanced 0 (.leftBracket :: ts ++ [.rightBracket]) :=
  (wrap rfl rfl rfl h).weaken (Nat.zero_le _)

/-- A block is one level more than what stands in it. -/
theorem braced (h : Balanced least ts) : Balanced (least + 1) (.leftBrace :: ts ++ [.rightBrace]) :=
  wrap rfl rfl rfl h

theorem commas {trailing : Bool} {rows : List (List Token)} (h : ∀ row ∈ rows, Balanced 0 row) :
    Balanced 0 (commas trailing rows) := by
  induction rows with
  | nil => exact nil
  | cons first rest ih =>
    have hfirst := h first List.mem_cons_self
    have hrest := ih fun row hrow => h row (List.mem_cons_of_mem _ hrow)
    cases rest with
    | nil =>
      rw [Script.commas]
      split
      · exact hfirst.left (plain rfl)
      · exact hfirst
    | cons second more => exact hfirst.left (hrest.cons rfl)

end Balanced

/-- What writes an expression is balanced. -/
theorem Spells.balanced {level : Nat} {e : Expr} {ts : List Token} (h : Spells level e ts) :
    Balanced 0 ts := by
  have hargument : ∀ (a : Argument) (us : List Token), Balanced 0 us →
      Balanced 0 (a.tokens us) := by
    intro a us hus
    cases a with
    | positional e => exact hus
    | keyword name e => exact (hus.cons rfl).cons rfl
  have hlist : ∀ {α : Type} (items : List α) (row : α → List Token) (trailing : Bool),
      (∀ item ∈ items, Balanced 0 (row item)) → Balanced 0 (commas trailing (items.map row)) := by
    intro α items row trailing hrows
    refine Balanced.commas fun ts hts => ?_
    obtain ⟨item, hitem, rfl⟩ := List.mem_map.1 hts
    exact hrows item hitem
  induction h with
  | @literal _ t s e h =>
    cases t <;> simp only [Token.literal?, reduceCtorEq] at h <;> exact .plain rfl
  | group _ ih => exact ih.parenthesized
  | list trailing _ ih => exact (hlist _ _ trailing ih).bracketed
  | tuple trailing _ _ ih => exact (hlist _ _ trailing ih).parenthesized
  | @unary _ _ op _ _ _ _ ih => cases op <;> exact ih.cons rfl
  | @binary _ _ op _ _ _ _ _ _ _ ihl ihr => cases op <;> exact ihl.left (ihr.cons rfl)
  | call trailing _ _ ihc ih =>
    exact ihc.left (hlist _ _ trailing fun p hp => hargument p.1 p.2 (ih p hp)).parenthesized
  | method trailing _ _ ihr ih =>
    have hargs := (hlist _ _ trailing fun p hp => hargument p.1 p.2 (ih p hp)).parenthesized
    exact ihr.left ((hargs.cons rfl).cons rfl)
  | field _ _ ih => exact ih.left ((Balanced.plain rfl).cons rfl)
  | index _ _ iho ihp =>
    rw [List.append_assoc]
    exact iho.left ihp.bracketed

/-- What writes a part of a body is balanced, with at least as many levels as blocks lie inside one
another. -/
theorem SpellsPart.balanced {part : Part} {ts : List Token} (h : SpellsPart part ts) :
    Balanced part.height ts := by
  induction h with
  | bind h => exact (((h.balanced.cons rfl).cons rfl).cons rfl).left (.plain rfl)
  | @assign _ _ _ op ts us ht hv =>
    have hvalue : Balanced 0 (op.token :: us) := by cases op <;> exact hv.balanced.cons rfl
    exact (ht.balanced.left hvalue).left (.plain rfl)
  | expr h => exact h.balanced.left (.plain rfl)
  | giveNothing => exact (Balanced.plain rfl).cons rfl
  | giveBack h => exact (h.balanced.cons rfl).left (.plain rfl)
  | choose _ ih => exact ih.cons rfl
  | loop he _ ih => exact (((he.balanced.right ih).cons rfl).cons rfl).cons rfl
  | nil => exact .nil
  | cons _ _ ihs ihr => exact ihs.append ihr
  | block _ ih => exact ih.braced
  | @last condition body ts us hc _ ih =>
    refine (hc.balanced.right ih).weaken ?_
    simp [Part.height, branchHeight, otherwiseHeight]
  | @otherwise condition body other ts us vs hc _ _ ihb iho =>
    refine ((hc.balanced.right ihb).append (iho.cons rfl)).weaken ?_
    simp [Part.height, branchHeight, otherwiseHeight]
  | @branch condition body rest otherwise ts us vs hc _ _ ihb ihr =>
    refine ((hc.balanced.right ihb).append ((ihr.cons rfl).cons rfl)).weaken ?_
    simp only [Part.height, branchHeight]
    omega

/-- What writes a script is balanced, with at least as many levels as the blocks of any function. -/
theorem Program.SpelledBy.balanced {p : Program} {ts : List Token} (h : p.SpelledBy ts) :
    Balanced 0 ts ∧ ∀ f ∈ p.functions, Balanced f.body.height ts := by
  obtain ⟨items⟩ := p
  change SpellsItems items ts at h
  induction h with
  | nil => exact ⟨.nil, fun _ hnone => absurd hnone List.not_mem_nil⟩
  | @cons item rest ts us hi _ ih =>
    cases hi with
    | @constant name e ts hvalue =>
      have hfirst : Balanced 0 (.wordLet :: .name name.text :: .equals :: ts ++ [.semicolon]) :=
        (((hvalue.balanced.cons rfl).cons rfl).cons rfl).left (.plain rfl)
      exact ⟨hfirst.left ih.1, fun f hf => hfirst.right (ih.2 f hf)⟩
    | @function f body trailing hbody =>
      have hparams : Balanced 0 (headerTokens trailing f.name f.params) := by
        refine Balanced.cons (Balanced.cons (Balanced.parenthesized (Balanced.commas ?_)) rfl) rfl
        intro row hrow
        obtain ⟨param, -, rfl⟩ := List.mem_map.1 hrow
        exact .plain rfl
      have hfirst := hparams.right hbody.balanced
      refine ⟨(hfirst.weaken (Nat.zero_le _)).left ih.1, fun g hg => ?_⟩
      rcases List.mem_cons.1 hg with rfl | htail
      · exact hfirst.left ih.1
      · exact hfirst.right (ih.2 g htail)

/-- Blocks of a script inside one another are bounded by what the bracket check lets through. -/
theorem Program.height_le_of_tooDeepBracket? {limit : Nat} {tokens : List Placed} {p : Program}
    (hp : Program.ofTokens tokens = .ok p) (ht : tooDeepBracket? limit 0 tokens = none) :
    ∀ f ∈ p.functions, f.body.height ≤ limit := by
  intro f hf
  obtain ⟨inner, hinner, hnested⟩ := (Program.spelledBy_of_ofTokens hp).balanced.2 f hf
  have hsome := (tooDeepBracket?_eq_none_iff limit 0 tokens).1 ht
  rw [hnested limit 0 (Nat.zero_le _)] at hsome
  split at hsome
  · omega
  · cases hsome

end LandPattern.Script
