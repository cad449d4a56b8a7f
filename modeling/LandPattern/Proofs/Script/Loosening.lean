import LandPattern.Proofs.Script.Lexemes
import LandPattern.Proofs.Script.Scanning

/-!
# Blanks end tokens

A token ends by the longest match, so a character behind it can make it longer. A blank there never
does: wherever the reading of a token stops, it stops as early when blanks are put behind the token.
-/

namespace LandPattern.Script

/-- One text is the other one up to its end, or up to a blank. -/
inductive Loosened : List Char → List Char → Prop where
  | done : Loosened [] []
  | char {text others : List Char} (c : Char) (h : Loosened text others) :
    Loosened (c :: text) (c :: others)
  | blank {c : Char} (hc : Text.isBlank c = true) (text others : List Char) :
    Loosened text (c :: others)

/-- A row of characters from the front is cut off in the same way when a blank is put behind it. -/
def Steady (scan : List Char → List Char) : Prop :=
  ∀ front rest others, scan (front ++ rest) = front → Loosened rest others →
    scan (front ++ others) = front

namespace Loosened

variable {rest others : List Char}

theorem append (front : List Char) (h : Loosened rest others) :
    Loosened (front ++ rest) (front ++ others) := by
  induction front with
  | nil => exact h
  | cons c front ih => exact .char c ih

/-- The first character is the same or a blank. -/
theorem head (h : Loosened rest others) {c : Char} {more : List Char} (heq : others = c :: more)
    (hc : Text.isBlank c = false) : ∃ tail, rest = c :: tail := by
  cases h with
  | done => cases heq
  | char d hmore =>
    obtain ⟨rfl, rfl⟩ := List.cons.inj heq
    exact ⟨_, rfl⟩
  | blank hd =>
    obtain ⟨rfl, rfl⟩ := List.cons.inj heq
    rw [hd] at hc
    cases hc

end Loosened

/-- No blank is a letter, a digit or an underscore. -/
theorem isWordChar_of_isBlank {c : Char} (h : Text.isBlank c = true) : isWordChar c = false := by
  simp only [Text.isBlank, Bool.or_eq_true, Bool.and_eq_true, decide_eq_true_eq, beq_iff_eq] at h
  rw [Bool.eq_false_iff]
  intro hw
  have hcode : c.val.toNat = c.toNat := rfl
  delta isWordChar Char.isAlphanum Char.isAlpha Char.isUpper Char.isLower Char.isDigit at hw
  simp only [Bool.or_eq_true, Bool.and_eq_true, decide_eq_true_eq, beq_iff_eq, ge_iff_le,
    UInt32.le_iff_toNat_le, hcode] at hw
  rcases hw with hw | rfl
  · simp at hw
    omega
  · simp at h

theorem isDigit_of_isBlank {c : Char} (h : Text.isBlank c = true) : c.isDigit = false := by
  have hword := isWordChar_of_isBlank h
  simp only [isWordChar, Char.isAlphanum, Bool.or_eq_false_iff] at hword
  exact hword.1.2

theorem ne_of_isBlank {c d : Char} (h : Text.isBlank c = true) (hd : Text.isBlank d = false) :
    c ≠ d := by
  rintro rfl
  rw [h] at hd
  cases hd

/-- A row of characters ends where one of another kind follows. -/
theorem takeWhile_append_eq_left {p : Char → Bool} {front rest : List Char}
    (h : (front ++ rest).takeWhile p = front) :
    (∀ c ∈ front, p c = true) ∧ rest.takeWhile p = [] := by
  have hfront : ∀ c ∈ front, p c = true := by
    rw [← h]
    exact fun c hc => List.all_eq_true.1 List.all_takeWhile c hc
  rw [List.takeWhile_append_of_pos hfront] at h
  exact ⟨hfront, List.append_right_eq_self.1 h⟩

/-- What is cut off at the front is known by its length. -/
theorem eq_of_prefix_append {front piece rest : List Char} (h : front <+: piece ++ rest)
    (hlength : front.length = piece.length) : front = piece := by
  obtain ⟨tail, htail⟩ := h
  exact (List.append_inj htail hlength).1

/-- A plus or a minus sign. -/
def isSign (c : Char) : Bool := c == '+' || c == '-'

/-- A sign at the front of a text. -/
def signFront (text : List Char) : List Char := (text.take 1).filter isSign

/-- The digits at the front of a text, or behind the sign that stands there. -/
def signedDigits (text : List Char) : List Char :=
  (text.drop (signFront text).length).takeWhile Char.isDigit

theorem exponentFront_mark {c : Char} (hc : (c == 'e' || c == 'E') = true) (more : List Char) :
    exponentFront (c :: more) =
      if (signedDigits more).isEmpty then [] else c :: (signFront more ++ signedDigits more) := by
  simp only [exponentFront, hc, if_true]
  rfl

theorem exponentFront_other {c : Char} (hc : (c == 'e' || c == 'E') = false) (more : List Char) :
    exponentFront (c :: more) = [] := by
  simp only [exponentFront, hc, Bool.false_eq_true, if_false]

namespace Steady

/-- Characters of a kind that blanks are not of. -/
theorem takeWhile {p : Char → Bool} (hp : ∀ c, Text.isBlank c = true → p c = false) :
    Steady (List.takeWhile p) := by
  intro front rest others h hl
  obtain ⟨hfront, hrest⟩ := takeWhile_append_eq_left h
  rw [List.takeWhile_append_of_pos hfront, List.append_right_eq_self]
  cases hl with
  | done => rfl
  | char c hmore =>
    cases hc : p c with
    | false => simp [hc]
    | true => simp [hc] at hrest
  | blank hc => simp [hp _ hc]

theorem digits : Steady (List.takeWhile Char.isDigit) := takeWhile fun _ => isDigit_of_isBlank

/-- One front and then another. -/
theorem append {first second : List Char → List Char} (hf : Steady first)
    (hfp : ∀ text, first text <+: text) (hs : Steady second) :
    Steady fun text => first text ++ second (text.drop (first text).length) := by
  intro front rest others h hl
  dsimp only at h ⊢
  obtain ⟨tail, htail⟩ := hfp (front ++ rest)
  generalize hx : first (front ++ rest) = x at h htail
  generalize hy : second ((front ++ rest).drop x.length) = y at h
  subst h
  have hbehind : y ++ rest = tail := by
    rw [List.append_assoc] at htail
    exact (List.append_cancel_left htail).symm
  rw [List.append_assoc] at hx hy ⊢
  rw [List.drop_left] at hy
  have hfirst : first (x ++ (y ++ others)) = x := hf x _ _ hx (hl.append y)
  rw [hfirst, List.drop_left, hs y rest others hy hl]

theorem fraction : Steady fractionFront := by
  have hpoint : ∀ more, fractionFront ('.' :: more) =
      if (more.takeWhile Char.isDigit).isEmpty then [] else '.' :: more.takeWhile Char.isDigit :=
    fun _ => rfl
  have hother : ∀ {c : Char} more, c ≠ '.' → fractionFront (c :: more) = [] := by
    intro c more hc
    unfold fractionFront
    split
    · rename_i heq
      exact absurd (List.cons.inj heq).1 hc
    · rfl
  intro front rest others h hl
  cases front with
  | nil =>
    cases hl with
    | done => rfl
    | blank hc => exact hother _ (ne_of_isBlank hc (by decide))
    | @char text others c hmore =>
      by_cases hc : c = '.'
      · subst hc
        rw [List.nil_append, hpoint] at h ⊢
        split at h
        · rename_i hnone
          have hothers := digits [] text others (List.isEmpty_iff.1 hnone) hmore
          rw [List.nil_append] at hothers
          rw [hothers]
          rfl
        · cases h
      · exact hother _ hc
  | cons c front =>
    by_cases hc : c = '.'
    · subst hc
      rw [List.cons_append, hpoint] at h ⊢
      split at h
      · cases h
      · rename_i hsome
        have hdigits : (front ++ rest).takeWhile Char.isDigit = front := (List.cons.inj h).2
        rw [hdigits] at hsome
        rw [digits front rest others hdigits hl, if_neg hsome]
    · rw [List.cons_append, hother _ hc] at h
      cases h

/-- At most one character of a kind that blanks are not of. -/
theorem one {p : Char → Bool} (hp : ∀ c, Text.isBlank c = true → p c = false) :
    Steady fun text => (text.take 1).filter p := by
  intro front rest others h hl
  cases front with
  | nil =>
    cases hl with
    | done => rfl
    | char c hmore => exact h
    | blank hc => simp [hp _ hc]
  | cons c front => simpa using h

theorem sign : Steady signFront := one fun c hc => by
  have hplus := ne_of_isBlank hc (d := '+') (by decide)
  have hminus := ne_of_isBlank hc (d := '-') (by decide)
  simp [isSign, hplus, hminus]

/-- No digits come into view behind a sign that had none. -/
theorem signedDigits_loosened {rest others : List Char} (h : signedDigits rest = [])
    (hl : Loosened rest others) : signedDigits others = [] := by
  cases hl with
  | done => rfl
  | @blank c hc _ more =>
    have hfree : signFront (c :: more) = [] := sign [] [] _ rfl (.blank hc [] more)
    rw [signedDigits, hfree]
    exact digits [] [] _ rfl (.blank hc [] more)
  | char c hmore =>
    have hsign : ∀ more, signFront (c :: more) = [c].filter isSign := fun _ => rfl
    rw [signedDigits, hsign] at h ⊢
    cases hc : isSign c with
    | true =>
      simp only [List.filter_cons_of_pos hc] at h ⊢
      exact digits [] _ _ h hmore
    | false =>
      simp only [List.filter_cons, hc] at h ⊢
      exact digits [] _ _ h (.char c hmore)

/-- A mark with a sign and digits behind it, of which only the sign may be missing. -/
theorem exponent : Steady exponentFront := by
  intro front rest others h hl
  cases front with
  | nil =>
    cases hl with
    | done => rfl
    | @blank c hc =>
      have hlower := ne_of_isBlank hc (d := 'e') (by decide)
      have hupper := ne_of_isBlank hc (d := 'E') (by decide)
      exact exponentFront_other (by simp [hlower, hupper]) _
    | @char text others c hmore =>
      cases hc : (c == 'e' || c == 'E') with
      | false => exact exponentFront_other hc _
      | true =>
        rw [List.nil_append, exponentFront_mark hc] at h ⊢
        split at h
        · rename_i hnone
          rw [signedDigits_loosened (List.isEmpty_iff.1 hnone) hmore]
          rfl
        · cases h
  | cons c front =>
    cases hc : (c == 'e' || c == 'E') with
    | false =>
      rw [List.cons_append, exponentFront_other hc] at h
      cases h
    | true =>
      rw [List.cons_append, exponentFront_mark hc, signedDigits] at h ⊢
      split at h
      · cases h
      · rename_i hsome
        generalize hx : signFront (front ++ rest) = x at h hsome
        generalize hy : ((front ++ rest).drop x.length).takeWhile Char.isDigit = y at h hsome
        obtain rfl : x ++ y = front := (List.cons.inj h).2
        rw [List.append_assoc] at hx hy ⊢
        rw [List.drop_left] at hy
        rw [sign x _ _ hx (hl.append y), List.drop_left, digits y rest others hy hl, if_neg hsome]

theorem number : Steady numberFront := by
  have hparts : numberFront = fun text =>
      (text.takeWhile Char.isDigit ++
        fractionFront (text.drop (text.takeWhile Char.isDigit).length)) ++
      exponentFront (text.drop (text.takeWhile Char.isDigit ++
        fractionFront (text.drop (text.takeWhile Char.isDigit).length)).length) := by
    funext text
    rw [List.length_append, ← List.drop_drop]
    rfl
  rw [hparts]
  exact append (append digits (fun _ => List.takeWhile_prefix _) fraction)
    (fun _ => append_isPrefix (List.takeWhile_prefix _) (fractionFront_isPrefix _)) exponent

end Steady

/-- What is no sign of two characters is none with a blank in between. -/
theorem doubleSign?_loosened {c : Char} {rest others : List Char} (h : doubleSign? c rest = none)
    (hl : Loosened rest others) : doubleSign? c others = none := by
  cases others with
  | nil => rfl
  | cons d more =>
    by_cases hd : d = '='
    · subst hd
      obtain ⟨tail, rfl⟩ := hl.head rfl (by decide)
      exact h
    · exact Lexeme.doubleSign?_of_ne fun _ heq => hd (List.cons.inj heq).1

/-- A number is read as before when a blank is put behind it. -/
theorem readNumber_loosened {front rest others : List Char} {token : Token}
    (h : readNumber (front ++ rest) = .token token front.length) (hl : Loosened rest others) :
    readNumber (front ++ others) = .token token front.length := by
  have hfront : numberFront (front ++ rest) = front :=
    eq_of_prefix_append (numberFront_isPrefix _) (readNumber_length h).symm
  have hothers := Steady.number front rest others hfront hl
  have hend : ∀ c more, rest = c :: more → isWordChar c = false := by
    rintro c more rfl
    cases hc : isWordChar c with
    | false => rfl
    | true =>
      unfold readNumber at h
      simp only [hfront, List.drop_left, hc, if_true, reduceCtorEq] at h
  have hend' : ∀ c more, others = c :: more → isWordChar c = false := by
    intro c more heq
    cases hblank : Text.isBlank c with
    | true => exact isWordChar_of_isBlank hblank
    | false =>
      obtain ⟨tail, hrest⟩ := hl.head heq hblank
      exact hend c tail hrest
  rw [← h]
  unfold readNumber
  simp only [hfront, hothers, List.drop_left]
  cases rest with
  | nil =>
    cases others with
    | nil => rfl
    | cons c more => simp only [hend' c more rfl]
  | cons d tail =>
    cases others with
    | nil => simp only [hend d tail rfl]
    | cons c more => simp only [hend d tail rfl, hend' c more rfl]

/-- A token that carries meaning, or ends a line, is read as before when a blank is put behind it.
-/
theorem read_loosened {c : Char} {piece rest others : List Char} {token : Token}
    (h : Lexeme.read c (piece ++ rest) = .token token (piece.length + 1))
    (hcomment : token ≠ .comment) (hblank : token ≠ .blank) (hl : Loosened rest others) :
    Lexeme.read c (piece ++ others) = .token token (piece.length + 1) := by
  unfold Lexeme.read at h ⊢
  dsimp only at h ⊢
  split at h
  · exact absurd (Lexeme.token.inj h).1.symm hcomment
  rename_i hslashes
  have hslashes' : ¬ (c == '/' && (piece ++ others).head? == some '/') = true := by
    intro hboth
    obtain ⟨hc, hhead⟩ := Bool.and_eq_true_iff.1 hboth
    obtain ⟨more, hmore⟩ := List.head?_eq_some_iff.1 (beq_iff_eq.1 hhead)
    obtain ⟨tail, htail⟩ := (hl.append piece).head hmore (by decide)
    exact hslashes (by rw [htail, hc]; rfl)
  rw [if_neg hslashes']
  split at h
  · rename_i hquote
    rw [if_pos hquote]
    split at h
    · rename_i found taken hread
      obtain ⟨htoken, rfl⟩ := Lexeme.token.inj h
      obtain ⟨taken, tail, heq, hlength, hsame⟩ := readText_take hread
      obtain ⟨rfl, -⟩ := List.append_inj heq (by omega)
      rw [hsame others, ← htoken]
    · cases h
  rename_i hquote
  rw [if_neg hquote]
  split at h
  · rename_i hdigit
    rw [if_pos hdigit]
    have hnumber : readNumber ((c :: piece) ++ rest) = .token token (c :: piece).length := h
    exact readNumber_loosened hnumber hl
  rename_i hdigit
  rw [if_neg hdigit]
  split at h
  · rename_i hstart
    rw [if_pos hstart]
    have hword : (c :: (piece ++ rest)).takeWhile isWordChar = c :: piece :=
      eq_of_prefix_append (List.takeWhile_prefix _) (Lexeme.token.inj h).2
    have hothers := Steady.takeWhile (fun _ => isWordChar_of_isBlank) (c :: piece) rest others
      hword hl
    rw [hword] at h
    rw [← List.cons_append, hothers]
    exact h
  rename_i hstart
  rw [if_neg hstart]
  split at h
  · rename_i sign hsign
    obtain ⟨rfl, hlength⟩ := Lexeme.token.inj h
    obtain ⟨d, rfl⟩ := List.length_eq_one_iff.1 (show piece.length = 1 by omega)
    have hother : doubleSign? c (d :: others) = some sign := by
      unfold doubleSign? at hsign ⊢
      split at hsign
      · rename_i heq
        obtain ⟨rfl, -⟩ := List.cons.inj heq
        exact hsign
      · cases hsign
    rw [List.cons_append, List.nil_append, hother]
    rfl
  rename_i hdouble
  split at h
  · rename_i sign hsign
    obtain ⟨rfl, hlength⟩ := Lexeme.token.inj h
    obtain rfl : piece = [] := List.length_eq_zero_iff.1 (by omega)
    rw [List.nil_append] at hdouble ⊢
    rw [doubleSign?_loosened hdouble hl]
    rfl
  · split at h
    · exact absurd (Lexeme.token.inj h).1.symm hblank
    · cases h

theorem doubleSign?_of_isBlank {c : Char} (h : Text.isBlank c = true) (rest : List Char) :
    doubleSign? c rest = none := by
  have hne : ∀ d, Text.isBlank d = false → (c == d) = false := fun d hd =>
    beq_eq_false_iff_ne.2 (ne_of_isBlank h hd)
  unfold doubleSign?
  split
  · simp only [hne '=' (by decide), hne '!' (by decide), hne '<' (by decide), hne '>' (by decide),
      hne '+' (by decide), hne '-' (by decide), hne '*' (by decide), hne '/' (by decide),
      Bool.false_eq_true, if_false]
  · rfl

theorem singleSign?_of_isBlank {c : Char} (h : Text.isBlank c = true) (hn : c ≠ '\n') :
    singleSign? c = none := by
  have hne : ∀ d, Text.isBlank d = false → (c == d) = false := fun d hd =>
    beq_eq_false_iff_ne.2 (ne_of_isBlank h hd)
  simp only [singleSign?, hne '+' (by decide), hne '-' (by decide), hne '*' (by decide),
    hne '/' (by decide), hne '%' (by decide), hne '=' (by decide), hne '<' (by decide),
    hne '>' (by decide), hne '(' (by decide), hne ')' (by decide), hne '[' (by decide),
    hne ']' (by decide), hne (Char.ofNat 0x7b) (by decide), hne (Char.ofNat 0x7d) (by decide),
    hne ',' (by decide), hne '.' (by decide), hne ';' (by decide), beq_eq_false_iff_ne.2 hn,
    Bool.false_eq_true, if_false]

/-- A blank that is no line end begins a row of them. -/
theorem read_blank {c : Char} (h : Text.isBlank c = true) (hn : c ≠ '\n') (rest : List Char) :
    Lexeme.read c rest = .token .blank ((c :: rest).takeWhile isInlineBlank).length := by
  have hne : ∀ d, Text.isBlank d = false → (c == d) = false := fun d hd =>
    beq_eq_false_iff_ne.2 (ne_of_isBlank h hd)
  have hstart : isWordStart c = false := by
    have hword := isWordChar_of_isBlank h
    simp only [isWordChar, Char.isAlphanum, Bool.or_eq_false_iff] at hword
    simp only [isWordStart, hword.1.1, hword.2, Bool.or_self]
  unfold Lexeme.read
  simp only [hne '/' (by decide), hne (Char.ofNat 0x22) (by decide), isDigit_of_isBlank h, hstart,
    doubleSign?_of_isBlank h, singleSign?_of_isBlank h hn, h, Bool.false_and, Bool.false_eq_true,
    if_false, if_true]
  rfl

theorem read_newline (rest : List Char) : Lexeme.read '\n' rest = .token .newline 1 := by
  unfold Lexeme.read
  rw [doubleSign?_of_isBlank (by decide)]
  rfl

theorem read_comment (rest : List Char) :
    Lexeme.read '/' ('/' :: rest) = .token .comment (restOfLine rest).length.succ.succ := rfl

end LandPattern.Script
