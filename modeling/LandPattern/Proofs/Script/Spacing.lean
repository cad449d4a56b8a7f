import LandPattern.Proofs.Script.Loosening
import LandPattern.Proofs.Script.Reading

/-!
# Room between tokens

Blanks and closed comments that are put between the tokens of a text keep the tokens apart that were
apart, and split none. Behind a comment the blanks become a part of the comment, up to the end of
the line.
-/

namespace LandPattern.Script

/-- Blanks and comments, every comment closed by a line end. -/
inductive Padding : List Char → Prop where
  | nil : Padding []
  | blank {c : Char} {rest : List Char} (hc : Text.isBlank c = true) (h : Padding rest) :
    Padding (c :: rest)
  | comment {line rest : List Char} (hl : '\n' ∉ line) (h : Padding rest) :
    Padding ('/' :: '/' :: (line ++ '\n' :: rest))

/-- A text with padding put in at some of these bytes; what is put in begins with a blank. -/
inductive Respaced (boundary : Nat → Prop) : Nat → List Char → List Char → Prop where
  | done (pos : Nat) : Respaced boundary pos [] []
  | char {pos : Nat} {text others : List Char} (c : Char)
    (h : Respaced boundary (pos + c.utf8Size) text others) :
    Respaced boundary pos (c :: text) (c :: others)
  | insert {pos : Nat} {text others : List Char} {c : Char} {pad : List Char} (hp : boundary pos)
    (hc : Text.isBlank c = true) (hpad : Padding pad) (h : Respaced boundary pos text others) :
    Respaced boundary pos text (c :: (pad ++ others))

/-- Where tokens begin and end. -/
def Boundary (tokens : List Placed) (pos : Nat) : Prop :=
  pos = 0 ∨ ∃ t ∈ tokens, pos = t.span.start ∨ pos = t.span.stop

/-- From any byte on, a text is a row of tokens, of which these carry meaning. -/
def LexesTo (text : List Char) (ts : List Token) : Prop :=
  ∀ pos, ∃ tokens, Lexed pos text tokens ∧ words (significant tokens) = ts

namespace LexesTo

variable {text rest : List Char} {ts : List Token}

theorem nil : LexesTo [] [] := fun pos => ⟨[], .done pos, rfl⟩

theorem token {c : Char} {piece : List Char} {t : Token}
    (h : Lexeme.read c (piece ++ rest) = .token t (piece.length + 1)) (ho : LexesTo rest ts) :
    LexesTo (c :: (piece ++ rest)) (if t.isTrivia then ts else t :: ts) := by
  intro pos
  obtain ⟨tokens, hlexed, rfl⟩ := ho (pos + byteLength (c :: piece))
  refine ⟨_, .token h hlexed, ?_⟩
  cases ht : t.isTrivia <;> simp [significant, words, ht]

/-- A blank in front of blanks makes their token longer, and is a token of its own elsewhere. -/
theorem blank {c : Char} (hc : Text.isBlank c = true) (h : LexesTo text ts) :
    LexesTo (c :: text) ts := by
  by_cases hline : c = '\n'
  · subst hline
    have hline : Lexeme.read '\n' ([] ++ text) = .token .newline (([] : List Char).length + 1) :=
      read_newline text
    exact token hline h
  · intro pos
    obtain ⟨tokens, hlexed, rfl⟩ := h (pos + byteLength [c])
    have hread : ∀ more, Lexeme.read c more =
        .token .blank ((more.takeWhile isInlineBlank).length + 1) := by
      intro more
      rw [read_blank hc hline, List.takeWhile_cons_of_pos (by simp [isInlineBlank, hc, hline])]
      rfl
    have halone : text.takeWhile isInlineBlank = [] → ∃ others, Lexed pos (c :: text) others ∧
        words (significant others) = words (significant tokens) := by
      intro hnone
      have hone : Lexeme.read c ([] ++ text) = .token .blank (([] : List Char).length + 1) := by
        rw [List.nil_append, hread, hnone]
      exact ⟨_, .token hone hlexed, rfl⟩
    cases hlexed with
    | done => exact halone rfl
    | @token _ d piece rest t tokens hnext hrest =>
      cases hd : isInlineBlank d with
      | false => exact halone (List.takeWhile_cons_of_neg (by simp [hd]))
      | true =>
        obtain ⟨hblank, hdline⟩ : Text.isBlank d = true ∧ d ≠ '\n' := by
          simpa [isInlineBlank] using hd
        rw [read_blank hblank hdline] at hnext
        obtain ⟨rfl, hlength⟩ := Lexeme.token.inj hnext
        have hmerged : Lexeme.read c ((d :: piece) ++ rest) =
            .token .blank ((d :: piece).length + 1) := by
          rw [hread, List.cons_append, List.length_cons, ← hlength]
        rw [Nat.add_assoc, ← byteLength_append] at hrest
        exact ⟨_, .token hmerged hrest, rfl⟩

/-- A comment goes up to the end of the line. -/
theorem comment {line : List Char} (hl : '\n' ∉ line) (hr : rest = [] ∨ ∃ more, rest = '\n' :: more)
    (h : LexesTo rest ts) : LexesTo ('/' :: '/' :: (line ++ rest)) ts := by
  have hall : ∀ c ∈ line, (c != '\n') = true := by
    intro c hc
    rw [bne_iff_ne]
    rintro rfl
    exact hl hc
  have hrest : restOfLine (line ++ rest) = line := by
    unfold restOfLine
    rw [List.takeWhile_append_of_pos hall]
    obtain rfl | ⟨more, rfl⟩ := hr
    · exact List.append_nil line
    · simp
  have hread : Lexeme.read '/' (('/' :: line) ++ rest) =
      .token .comment (('/' :: line).length + 1) := by
    rw [List.cons_append, read_comment, hrest]
    rfl
  exact token hread h

theorem padding {pad : List Char} (hp : Padding pad) (h : LexesTo text ts) :
    LexesTo (pad ++ text) ts := by
  induction hp with
  | nil => exact h
  | blank hc _ ih => exact ih.blank hc
  | @comment line rest hl _ ih =>
    have hnext : LexesTo ('\n' :: (rest ++ text)) ts := ih.blank (by decide)
    have hall := hnext.comment hl (.inr ⟨_, rfl⟩)
    rw [List.cons_append, List.cons_append, List.append_assoc]
    exact hall

end LexesTo

namespace Padding

variable {pad more : List Char}

theorem append (h : Padding pad) (ho : Padding more) : Padding (pad ++ more) := by
  induction h with
  | nil => exact ho
  | blank hc _ ih => exact ih.blank hc
  | comment hl _ ih =>
    rw [List.cons_append, List.cons_append, List.append_assoc]
    exact ih.comment hl

theorem blanks (h : ∀ c ∈ pad, Text.isBlank c = true) : Padding pad := by
  induction pad with
  | nil => exact .nil
  | cons c rest ih =>
    exact (ih fun d hd => h d (List.mem_cons_of_mem c hd)).blank (h c List.mem_cons_self)

/-- Padding behind a comment goes on as padding after the end of the line. -/
theorem line (h : Padding pad) : ∃ front rest, pad = front ++ rest ∧ '\n' ∉ front ∧
    (rest = [] ∨ ∃ tail, rest = '\n' :: tail) ∧ Padding rest := by
  induction h with
  | nil => exact ⟨[], [], rfl, List.not_mem_nil, .inl rfl, .nil⟩
  | @blank c rest hc h ih =>
    by_cases hline : c = '\n'
    · subst hline
      exact ⟨[], _, rfl, List.not_mem_nil, .inr ⟨_, rfl⟩, h.blank hc⟩
    · obtain ⟨front, others, rfl, hfront, hends, hothers⟩ := ih
      exact ⟨c :: front, others, rfl, List.not_mem_cons_of_ne_of_not_mem (Ne.symm hline) hfront,
        hends, hothers⟩
  | @comment line rest hl h _ =>
    refine ⟨'/' :: '/' :: line, '\n' :: rest, rfl, ?_, .inr ⟨_, rfl⟩, h.blank (by decide)⟩
    simp [hl]

end Padding

namespace Respaced

variable {boundary : Nat → Prop} {pos : Nat} {text others : List Char}

theorem loosened (h : Respaced boundary pos text others) : Loosened text others := by
  induction h with
  | done => exact .done
  | char c _ ih => exact .char c ih
  | insert _ hc _ _ => exact .blank hc _ _

/-- What stands in front of the first character is padding. -/
theorem unpad (h : Respaced boundary pos text others) :
    ∃ pad rest, others = pad ++ rest ∧ Padding pad ∧ Respaced boundary pos text rest ∧
      (text = [] ∧ rest = [] ∨ ∃ c more tail, text = c :: more ∧ rest = c :: tail ∧
        Respaced boundary (pos + c.utf8Size) more tail) := by
  induction h with
  | done pos => exact ⟨[], [], rfl, .nil, .done pos, .inl ⟨rfl, rfl⟩⟩
  | char c h _ => exact ⟨[], _, rfl, .nil, .char c h, .inr ⟨c, _, _, rfl, rfl, h⟩⟩
  | @insert _ _ _ c pad _ hc hpad _ ih =>
    obtain ⟨more, rest, rfl, hmore, hrest, hends⟩ := ih
    exact ⟨c :: (pad ++ more), rest, by simp, (hpad.append hmore).blank hc, hrest, hends⟩

/-- Between two bytes at which nothing may be put in, the characters are the same. -/
theorem interior {piece rest : List Char} (h : Respaced boundary pos (piece ++ rest) others)
    (hb : ∀ b, boundary b → b < pos ∨ pos + byteLength piece ≤ b) :
    ∃ tail, others = piece ++ tail ∧ Respaced boundary (pos + byteLength piece) rest tail := by
  induction piece generalizing pos others with
  | nil => exact ⟨others, rfl, h⟩
  | cons c piece ih =>
    have hc : 1 ≤ c.utf8Size := c.utf8Size_pos
    rw [byteLength_cons] at hb ⊢
    cases h with
    | char _ h =>
      have hnext : ∀ b, boundary b → b < pos + c.utf8Size ∨
          pos + c.utf8Size + byteLength piece ≤ b := fun b hb' => by
        rcases hb b hb' with hless | hmore
        · exact .inl (by omega)
        · exact .inr (by omega)
      obtain ⟨tail, rfl, htail⟩ := ih h hnext
      exact ⟨tail, rfl, by rwa [← Nat.add_assoc]⟩
    | insert hp _ _ _ =>
      rcases hb pos hp with hless | hmore
      · omega
      · omega

end Respaced

/-- Tokens of a row begin where it begins or later. -/
theorem Lexed.le_start {pos : Nat} {text : List Char} {tokens : List Placed}
    (h : Lexed pos text tokens) :
    ∀ t ∈ tokens, pos ≤ t.span.start ∧ t.span.start < t.span.stop := by
  induction h with
  | done => exact fun _ hnone => absurd hnone List.not_mem_nil
  | @token pos c piece rest token tokens _ _ ih =>
    have hc : 1 ≤ c.utf8Size := c.utf8Size_pos
    intro t ht
    rw [byteLength_cons] at ih ht
    rcases List.mem_cons.1 ht with rfl | hrest
    · exact ⟨Nat.le_refl _, by dsimp only; omega⟩
    · have hlater := ih t hrest
      omega

theorem isTrivia_ofWord (word : String) : (Token.ofWord word).isTrivia = false := by
  unfold Token.ofWord
  cases hword : Token.words.lookup word with
  | none => rfl
  | some t =>
    obtain ⟨before, after, heq, -⟩ := List.lookup_eq_some_iff.1 hword
    have hall : ∀ entry ∈ Token.words, entry.2.isTrivia = false := by decide
    exact hall (word, t) (by rw [heq]; exact List.mem_append_right _ List.mem_cons_self)

theorem singleSign?_ne_trivia {c : Char} {t : Token} (h : t = .comment ∨ t = .blank) :
    singleSign? c ≠ some t := by
  rcases h with rfl | rfl <;> unfold singleSign? <;> repeat' refine ite_ne (by simp) ?_
  all_goals simp

/-- Comments and rows of blanks are read as such alone. -/
theorem read_eq_trivia {c : Char} {rest : List Char} {t : Token} {length : Nat}
    (h : Lexeme.read c rest = .token t length) :
    t = .comment ∧ c = '/' ∧ (∃ more, rest = '/' :: more) ∧
        length = (restOfLine (c :: rest)).length ∨
      t = .blank ∧ Text.isBlank c = true ∧ c ≠ '\n' ∨ t ≠ .comment ∧ t ≠ .blank := by
  cases Lexeme.reads_of_read h with
  | comment hc hr => exact .inl ⟨rfl, hc, ⟨_, hr⟩, rfl⟩
  | quoted => exact .inr (.inr ⟨by simp, by simp⟩)
  | number hc hnumber =>
    refine .inr (.inr ?_)
    unfold readNumber at hnumber
    dsimp only at hnumber
    repeat' split at hnumber
    all_goals cases hnumber
    all_goals exact ⟨by simp, by simp⟩
  | word =>
    have hword := isTrivia_ofWord (String.ofList ((c :: rest).takeWhile isWordChar))
    refine .inr (.inr ⟨?_, ?_⟩) <;> intro heq <;> rw [heq] at hword <;> cases hword
  | double hr hsign =>
    refine .inr (.inr ?_)
    unfold doubleSign? at hsign
    repeat' split at hsign
    all_goals cases hsign
    all_goals exact ⟨by simp, by simp⟩
  | single hc hd hsign =>
    exact .inr (.inr ⟨fun heq => singleSign?_ne_trivia (.inl heq) hsign,
      fun heq => singleSign?_ne_trivia (.inr heq) hsign⟩)
  | blank hc hl => exact .inr (.inl ⟨rfl, hc, hl⟩)

/-- A comment takes the padding behind it up to the end of the line. -/
theorem respaced_comment {boundary : Nat → Prop} {pos : Nat} {piece rest more others : List Char}
    {ts : List Token} (hslash : piece ++ rest = '/' :: more)
    (hlength : piece.length + 1 = (restOfLine ('/' :: (piece ++ rest))).length)
    (ho : Respaced boundary pos rest others)
    (h : ∀ {others}, Respaced boundary pos rest others → LexesTo others ts) :
    LexesTo ('/' :: (piece ++ others)) ts := by
  obtain ⟨line, rfl⟩ : ∃ line, piece = '/' :: line := by
    cases piece with
    | nil =>
      rw [hslash] at hlength
      simp [restOfLine] at hlength
    | cons d line => exact ⟨line, by rw [(List.cons.inj hslash).1]⟩
  have hline : restOfLine (line ++ rest) = line := by
    refine eq_of_prefix_append (List.takeWhile_prefix _) ?_
    simp only [restOfLine] at hlength ⊢
    simpa using hlength.symm
  obtain ⟨hfront, hends⟩ := takeWhile_append_eq_left hline
  obtain ⟨pad, last, rfl, hpad, hlast, hcase⟩ := ho.unpad
  obtain ⟨front, back, rfl, hnone, hback, hpadding⟩ := hpad.line
  have hstart : last = [] ∨ ∃ tail, last = '\n' :: tail := by
    rcases hcase with ⟨-, rfl⟩ | ⟨c, more, tail, rfl, rfl, -⟩
    · exact .inl rfl
    · refine .inr ⟨tail, ?_⟩
      cases hc : c != '\n' with
      | true => simp [hc] at hends
      | false => rw [bne_eq_false_iff_eq.1 hc]
  have hbehind : back ++ last = [] ∨ ∃ tail, back ++ last = '\n' :: tail := by
    obtain rfl | ⟨tail, rfl⟩ := hback
    · exact hstart
    · exact .inr ⟨_, rfl⟩
  have hall : '\n' ∉ line ++ front := by
    rw [List.mem_append, not_or]
    exact ⟨fun hin => absurd (hfront _ hin) (by simp), hnone⟩
  have hcomment := (LexesTo.padding hpadding (h hlast)).comment hall hbehind
  rw [List.append_assoc, ← List.append_assoc front] at hcomment
  exact hcomment

/-- A text with room between its tokens has the same tokens, those without meaning left out. -/
theorem Lexed.respaced {boundary : Nat → Prop} {pos : Nat} {text others : List Char}
    {tokens : List Placed} (h : Lexed pos text tokens)
    (hb : ∀ b, boundary b → b ≤ pos ∨ ∃ t ∈ tokens, b = t.span.start ∨ b = t.span.stop)
    (ho : Respaced boundary pos text others) : LexesTo others (words (significant tokens)) := by
  induction h generalizing others with
  | done pos =>
    obtain ⟨pad, rest, rfl, hpad, -, ⟨-, rfl⟩ | ⟨c, more, tail, htext, -⟩⟩ := ho.unpad
    · exact LexesTo.nil.padding hpad
    · cases htext
  | @token pos c piece rest t tokens hread hlexed ih =>
    obtain ⟨pad, others, rfl, hpad, -, ⟨htext, -⟩ | ⟨d, more, tail, htext, rfl, htail⟩⟩ := ho.unpad
    · cases htext
    obtain ⟨rfl, rfl⟩ := List.cons.inj htext
    refine LexesTo.padding hpad ?_
    rw [byteLength_cons, ← Nat.add_assoc] at hb hlexed ih
    have hc : 1 ≤ c.utf8Size := c.utf8Size_pos
    have hbehind : ∀ b, boundary b → b ≤ pos ∨ pos + c.utf8Size + byteLength piece ≤ b := by
      intro b hb'
      rcases hb b hb' with hless | ⟨t, ht, hends⟩
      · exact .inl hless
      · rcases List.mem_cons.1 ht with rfl | hlater
        · rcases hends with rfl | rfl
          · exact .inl (Nat.le_refl _)
          · exact .inr (Nat.le_refl _)
        · have hstart := hlexed.le_start t hlater
          exact .inr (by omega)
    have hinner : ∀ b, boundary b →
        b < pos + c.utf8Size ∨ pos + c.utf8Size + byteLength piece ≤ b := by
      intro b hb'
      rcases hbehind b hb' with hless | hmore
      · exact .inl (by omega)
      · exact .inr hmore
    obtain ⟨behind, rfl, hrest⟩ := htail.interior hinner
    have hnext : ∀ {others}, Respaced boundary (pos + c.utf8Size + byteLength piece) rest others →
        LexesTo others (words (significant tokens)) := by
      refine ih fun b hb' => ?_
      rcases hb b hb' with hless | ⟨t, ht, hends⟩
      · exact .inl (by omega)
      · rcases List.mem_cons.1 ht with rfl | hlater
        · rcases hends with rfl | rfl
          · exact .inl (by omega)
          · exact .inl (Nat.le_refl _)
        · exact .inr ⟨t, hlater, hends⟩
    rcases read_eq_trivia hread with
      ⟨rfl, rfl, ⟨more, hslash⟩, hlength⟩ | ⟨rfl, hblank, hline⟩ | ⟨hcomment, hblank⟩
    · exact respaced_comment hslash hlength hrest hnext
    · rw [read_blank hblank hline] at hread
      have hrow : ((c :: piece) ++ rest).takeWhile isInlineBlank = c :: piece :=
        eq_of_prefix_append (List.takeWhile_prefix _) (Lexeme.token.inj hread).2
      have hblanks : ∀ d ∈ c :: piece, Text.isBlank d = true := fun d hd =>
        (Bool.and_eq_true_iff.1 ((takeWhile_append_eq_left hrow).1 d hd)).1
      exact LexesTo.padding (Padding.blanks hblanks) (hnext hrest)
    · have htoken := LexesTo.token (read_loosened hread hcomment hblank hrest.loosened) (hnext hrest)
      cases ht : t.isTrivia <;> simpa [significant, words, ht] using htoken

/-- Padding between the tokens of a source changes none of those that carry meaning. -/
theorem tokenize_respaced {source others : String} {tokens : List Placed}
    (h : tokenize source = .ok tokens)
    (ho : Respaced (Boundary tokens) 0 source.toList others.toList) :
    ∃ found, tokenize others = .ok found ∧
      words (significant found) = words (significant tokens) := by
  have hb : ∀ b, Boundary tokens b → b ≤ 0 ∨ ∃ t ∈ tokens, b = t.span.start ∨ b = t.span.stop :=
    fun b hb => hb.imp_left Nat.le_of_eq
  obtain ⟨found, hfound, hwords⟩ := (tokenize_eq_ok_iff.1 h).respaced hb ho 0
  exact ⟨found, tokenize_eq_ok_iff.2 hfound, hwords⟩

end LandPattern.Script
