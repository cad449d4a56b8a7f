import LandPattern.Proofs.Script.Accepting
import LandPattern.Proofs.Script.Padding
import LandPattern.Proofs.Script.ReadingBlocks

/-!
# Reading inverts printing

Every script whose choices have branches is read back from its printed tokens. Conversely, the
tokens of a script that is read are the printed ones, with parentheses and commas between them that
change nothing.
-/

namespace LandPattern.Script

/-- Wherever these words stand, they are read as the script, apart from where its parts stand. -/
def Program.ReadFrom (p : Program) (ts : List Token) : Prop :=
  ∀ tokens : List Placed, words (significant tokens) = ts →
    ∃ q, Program.ofTokens tokens = .ok q ∧ q.bare = p.bare

/-- All these tokens carry meaning. -/
def Meaningful (ts : List Token) : Prop := ∀ t ∈ ts, t.isTrivia = false

theorem Meaningful.nil : Meaningful [] := fun _ h => absurd h List.not_mem_nil

theorem Meaningful.cons {t : Token} {ts : List Token} (ht : t.isTrivia = false)
    (h : Meaningful ts) : Meaningful (t :: ts) := by
  intro u hu
  rcases List.mem_cons.mp hu with rfl | hu
  · exact ht
  · exact h u hu

theorem Meaningful.append {ts us : List Token} (h : Meaningful ts) (hu : Meaningful us) :
    Meaningful (ts ++ us) := by
  intro t ht
  rcases List.mem_append.mp ht with ht | ht
  · exact h t ht
  · exact hu t ht

theorem Meaningful.commas {trailing : Bool} {rows : List (List Token)}
    (h : ∀ ts ∈ rows, Meaningful ts) : Meaningful (commas trailing rows) := by
  induction rows with
  | nil => exact .nil
  | cons ts rest ih =>
    have hts := h ts List.mem_cons_self
    have hrest := ih fun us hu => h us (List.mem_cons_of_mem ts hu)
    cases rest with
    | nil =>
      cases trailing with
      | false => exact hts
      | true => exact hts.append (.cons rfl .nil)
    | cons us more => exact hts.append (.cons rfl hrest)

theorem Meaningful.parenthesized {ts : List Token} (h : Meaningful ts) :
    Meaningful (parenthesized ts) :=
  .cons rfl (h.append (.cons rfl .nil))

theorem isTrivia_of_literal? {t : Token} {s : Span} {e : Expr} (h : t.literal? s = some e) :
    t.isTrivia = false := by
  cases t <;> first | rfl | cases h

/-- No token of an expression is set aside. -/
theorem Spells.meaningful {level : Nat} {e : Expr} {ts : List Token} (h : Spells level e ts) :
    Meaningful ts := by
  have hargs : ∀ {args : List (Argument × List Token)} {trailing : Bool},
      (∀ p ∈ args, Meaningful p.2) →
        Meaningful (Script.parenthesized (Script.commas trailing (args.map fun p => p.1.tokens p.2))) :=
    fun {args _} hall => .parenthesized <| .commas <| by
      intro ts hts
      obtain ⟨⟨a, us⟩, hmem, rfl⟩ := List.mem_map.mp hts
      cases a with
      | positional value => exact hall _ hmem
      | keyword name value => exact .cons rfl (.cons rfl (hall _ hmem))
  induction h with
  | literal h => exact .cons (isTrivia_of_literal? h) .nil
  | group _ ih => exact ih.parenthesized
  | list trailing _ ih =>
    refine .cons rfl (Meaningful.append (.commas ?_) (.cons rfl .nil))
    intro ts hts
    obtain ⟨p, hmem, rfl⟩ := List.mem_map.mp hts
    exact ih p hmem
  | tuple trailing _ _ ih =>
    refine .parenthesized (.commas ?_)
    intro ts hts
    obtain ⟨p, hmem, rfl⟩ := List.mem_map.mp hts
    exact ih p hmem
  | @unary _ _ op _ _ _ _ ih => exact .cons (by cases op <;> rfl) ih
  | @binary _ _ op _ _ _ _ _ _ _ ihl ihr => exact ihl.append (.cons (by cases op <;> rfl) ihr)
  | call _ _ _ ihc ih => exact ihc.append (hargs ih)
  | method _ _ _ ihr ih => exact ihr.append (.cons rfl (.cons rfl (hargs ih)))
  | field _ _ ih => exact ih.append (.cons rfl (.cons rfl .nil))
  | index _ _ iho ihp => exact (iho.append (.cons rfl ihp)).append (.cons rfl .nil)

/-- No token of a part of a body is set aside. -/
theorem SpellsPart.meaningful {part : Part} {ts : List Token} (h : SpellsPart part ts) :
    Meaningful ts := by
  have hend : Meaningful [.semicolon] := .cons rfl .nil
  induction h with
  | bind h => exact (Meaningful.cons rfl (.cons rfl (.cons rfl h.meaningful))).append hend
  | @assign _ _ _ op _ _ ht hv =>
    exact (ht.meaningful.append (.cons (by cases op <;> rfl) hv.meaningful)).append hend
  | expr h => exact h.meaningful.append hend
  | giveNothing => exact .cons rfl hend
  | giveBack h => exact (Meaningful.cons rfl h.meaningful).append hend
  | choose _ ih => exact .cons rfl ih
  | loop he _ ih =>
    exact (Meaningful.cons rfl (.cons rfl (.cons rfl he.meaningful))).append ih
  | nil => exact .nil
  | cons _ _ ihs ihr => exact ihs.append ihr
  | block _ ih => exact (Meaningful.cons rfl ih).append (.cons rfl .nil)
  | last hc _ ih => exact hc.meaningful.append ih
  | otherwise hc _ _ ihb iho => exact (hc.meaningful.append ihb).append (.cons rfl iho)
  | branch hc _ _ ihb ihr =>
    exact (hc.meaningful.append ihb).append (.cons rfl (.cons rfl ihr))

/-- No token of a script is set aside. -/
theorem Program.SpelledBy.meaningful {p : Program} {ts : List Token} (h : p.SpelledBy ts) :
    Meaningful ts := by
  obtain ⟨items⟩ := p
  change SpellsItems items ts at h
  induction h with
  | nil => exact .nil
  | cons hi _ ih =>
    refine Meaningful.append ?_ ih
    cases hi with
    | function trailing hb =>
      refine Meaningful.append (.cons rfl (.cons rfl (.parenthesized (.commas ?_)))) hb.meaningful
      intro ts hts
      obtain ⟨param, -, rfl⟩ := List.mem_map.mp hts
      exact .cons rfl .nil
    | constant he =>
      exact (Meaningful.cons rfl (.cons rfl (.cons rfl he.meaningful))).append (.cons rfl .nil)

/-- All spellings of a script are read alike. -/
theorem Program.SpelledBy.readFrom {p : Program} {ts : List Token} (h : p.SpelledBy ts) :
    p.ReadFrom ts := by
  rintro tokens rfl
  exact Program.ofTokens_of_spelledBy h

/-- Reading inverts printing: a script whose choices have branches is read back from its printed
tokens, and whatever is read was written by the printed tokens, padded with parentheses and commas
that leave the script as it is. -/
theorem Program.ofTokens_inverts_print :
    (∀ p : Program, p.Complete → Meaningful p.print ∧ p.ReadFrom p.print) ∧
      ∀ (tokens : List Placed) (q : Program), Program.ofTokens tokens = .ok q →
        q.Complete ∧ Pads q.ReadFrom q.print (words (significant tokens)) := by
  refine ⟨fun p hp => ⟨?_, ?_⟩, fun tokens q hq => ⟨?_, ?_⟩⟩
  · exact (Program.print_spelled hp).meaningful
  · exact (Program.print_spelled hp).readFrom
  · exact (Program.spelledBy_of_ofTokens hq).complete
  · have hpads := (Program.spelledBy_of_ofTokens hq).pads
    have hread := hpads.within q.ReadFrom [] [] fun vs hv => by
      simpa using hv.readFrom
    simpa using hread

/-- A function that returns `(x.f)(x)` when `(not x) == y`. -/
def sampleScript : Program :=
  let x : Expr := .name .nowhere "x"
  let test : Expr := .binary .nowhere .eq (.unary .nowhere .not x) (.name .nowhere "y")
  let result : Expr :=
    .call .nowhere (.field .nowhere x ⟨"f", .nowhere⟩) [.positional x]
  let body : Block := .mk .nowhere [.giveBack .nowhere (some result)]
  ⟨[.function ⟨⟨"g", .nowhere⟩, [⟨"x", .nowhere⟩],
    .mk .nowhere [.choose .nowhere [.mk test body] none], .nowhere⟩]⟩

/-- The sample with a comma behind its parameter and parentheses around its argument. -/
def sampleTokens : List Placed :=
  [.wordFn, .name "g", .leftParen, .name "x", .comma, .rightParen, .leftBrace, .wordIf,
    .leftParen, .wordNot, .name "x", .rightParen, .equalsEquals, .name "y", .leftBrace,
    .wordReturn, .leftParen, .name "x", .dot, .name "f", .rightParen, .leftParen, .leftParen,
    .name "x", .rightParen, .rightParen, .semicolon, .rightBrace, .rightBrace].map
      fun t => ⟨t, .nowhere⟩

/-- The sample is read from its own tokens and from padded ones. -/
theorem Program.ofTokens_inverts_print_sample :
    sampleScript.Complete ∧ Program.ofTokens sampleTokens = .ok sampleScript ∧
      sampleScript.ReadFrom sampleScript.print ∧
      Pads sampleScript.ReadFrom sampleScript.print (words (significant sampleTokens)) := by
  have hread : Program.ofTokens sampleTokens = .ok sampleScript := by rfl
  have hcomplete := (Program.ofTokens_inverts_print.2 sampleTokens sampleScript hread).1
  refine ⟨hcomplete, hread, ?_, ?_⟩
  · exact (Program.ofTokens_inverts_print.1 sampleScript hcomplete).2
  · exact (Program.ofTokens_inverts_print.2 sampleTokens sampleScript hread).2

end LandPattern.Script
