import LandPattern.Proofs.Number.Digits
import LandPattern.Proofs.Script.Numerals
import LandPattern.Proofs.Script.Quoting
import LandPattern.Proofs.Script.Spacing

/-!
# Literals in a text

What a number, a word, a text between quotes and a sign are read as when something follows that is
not a part of them. Each lemma says what a text begins with and which token that is, wherever the
text stands.
-/

namespace LandPattern.Script

/-- The text does not go on with a letter, a digit, an underscore or a point, so that it ends every
number and every word before it. -/
def Ends (rest : List Char) : Prop := ∀ c more, rest = c :: more → isWordChar c = false ∧ c ≠ '.'

theorem ends_nil : Ends [] := fun _ _ h => by cases h

theorem ends_cons {c : Char} {more : List Char} (hw : isWordChar c = false) (hp : c ≠ '.') :
    Ends (c :: more) := by
  rintro d others heq
  obtain ⟨rfl, -⟩ := List.cons.inj heq
  exact ⟨hw, hp⟩

namespace Ends

variable {rest : List Char}

/-- A row of characters of words goes up to the end of the word. -/
theorem takeWhile (h : Ends rest) {p : Char → Bool} (hp : ∀ c, p c = true → isWordChar c = true)
    {word : List Char} (hw : ∀ c ∈ word, p c = true) : (word ++ rest).takeWhile p = word := by
  rw [List.takeWhile_append_of_pos hw]
  cases rest with
  | nil => exact List.append_nil word
  | cons c more =>
    have hc : p c = false := by
      cases hpc : p c with
      | false => rfl
      | true =>
        have hword := hp c hpc
        rw [(h c more rfl).1] at hword
        cases hword
    rw [List.takeWhile_cons_of_neg (by simp [hc]), List.append_nil]

/-- What ends a word ends a row of digits. -/
theorem parted (h : Ends rest) : Parted rest :=
  fun c more heq => ⟨(h c more heq).1, fun hpoint => (h c more heq).2 hpoint.1⟩

end Ends

/-- A whole number in range is read from its digits. -/
theorem readNumber_toDigits {n : Nat} {rest : List Char} (hn : (n : Int) ≤ Number.maxInt)
    (h : Ends rest) :
    readNumber (Nat.toDigits 10 n ++ rest) = .token (.int n) (Nat.toDigits 10 n).length := by
  have hdigits : IsDigits (Nat.toDigits 10 n) := ⟨Nat.toDigits_ne_nil, Number.isDigit_toDigits n⟩
  have hrange : Number.inRange? (n : Int) = some (n : Int) := by
    refine Number.inRange?_eq_some_iff.2 ⟨⟨?_, hn⟩, rfl⟩
    have hmin : Number.minInt ≤ 0 := by decide
    omega
  rw [h.parted.readNumber hdigits, Number.ofDigits_toDigits, hrange]

/-- What is read is not a comment unless it begins with a slash. -/
theorem read_of_ne_slash {c : Char} (hs : c ≠ '/') (rest : List Char) :
    (c == '/' && rest.head? == some '/') = false := by
  rw [beq_eq_false_iff_ne.2 hs, Bool.false_and]

theorem read_digit {c : Char} (hc : c.isDigit = true) (rest : List Char) :
    Lexeme.read c rest = readNumber (c :: rest) := by
  have hslash : c ≠ '/' := by
    rintro rfl
    exact absurd hc (by decide)
  have hquote : (c == Char.ofNat 0x22) = false := by
    rw [beq_eq_false_iff_ne]
    rintro rfl
    exact absurd hc (by decide)
  unfold Lexeme.read
  simp only [read_of_ne_slash hslash, hquote, hc, Bool.false_eq_true, if_false, if_true]

theorem read_word {c : Char} (hc : isWordStart c = true) (rest : List Char) :
    Lexeme.read c rest = .token (Token.ofWord (String.ofList ((c :: rest).takeWhile isWordChar)))
      ((c :: rest).takeWhile isWordChar).length := by
  have hslash : c ≠ '/' := by
    rintro rfl
    exact absurd hc (by decide)
  have hquote : (c == Char.ofNat 0x22) = false := by
    rw [beq_eq_false_iff_ne]
    rintro rfl
    exact absurd hc (by decide)
  have hdigit : c.isDigit = false := by
    cases hd : c.isDigit with
    | false => rfl
    | true =>
      have hletter : c.isAlpha = false := by
        delta Char.isDigit at hd
        delta Char.isAlpha Char.isUpper Char.isLower
        simp only [Bool.and_eq_true, decide_eq_true_eq, Bool.or_eq_false_iff, Bool.and_eq_false_iff,
          decide_eq_false_iff_not, UInt32.le_iff_toNat_le] at hd ⊢
        simp at hd ⊢
        omega
      have hunder : (c == '_') = false := by
        rw [beq_eq_false_iff_ne]
        rintro rfl
        exact absurd hd (by decide)
      rw [isWordStart, hletter, hunder] at hc
      cases hc
  unfold Lexeme.read
  simp only [read_of_ne_slash hslash, hquote, hdigit, hc, Bool.false_eq_true, if_false, if_true]

/-- The characters that signs begin with. -/
def signs : List Char :=
  ['+', '-', '*', '/', '%', '=', '<', '>', '(', ')', '[', ']', Char.ofNat 0x7b, Char.ofNat 0x7d,
    ',', '.', ';', '\n', '!']

theorem mem_signs_of_singleSign? {c : Char} {sign : Token} (h : singleSign? c = some sign) :
    c ∈ signs := by
  refine Decidable.byContradiction fun hc => ?_
  simp only [signs, List.mem_cons, List.not_mem_nil, not_or] at hc
  simp [singleSign?, hc] at h

theorem mem_signs_of_doubleSign? {c : Char} {sign : Token} (h : doubleSign? c ['='] = some sign) :
    c ∈ signs := by
  refine Decidable.byContradiction fun hc => ?_
  simp only [signs, List.mem_cons, List.not_mem_nil, not_or] at hc
  simp [doubleSign?, hc] at h

/-- What a sign begins with begins no text, no number and no word. -/
theorem plain_of_mem_signs {c : Char} (h : c ∈ signs) :
    (c == Char.ofNat 0x22) = false ∧ c.isDigit = false ∧ isWordStart c = false := by
  have hall :
      (signs.all fun d => !(d == Char.ofNat 0x22 || d.isDigit || isWordStart d)) = true := by
    decide
  simpa [and_assoc] using List.all_eq_true.1 hall c h

/-- A sign of two characters is never read as two signs. -/
theorem read_doubleSign {c : Char} {more : List Char} {sign : Token}
    (h : doubleSign? c ['='] = some sign) : Lexeme.read c ('=' :: more) = .token sign 2 := by
  obtain ⟨hquote, hdigit, hword⟩ := plain_of_mem_signs (mem_signs_of_doubleSign? h)
  have hdouble : doubleSign? c ('=' :: more) = some sign := h
  simp [Lexeme.read, hquote, hdigit, hword, hdouble]

/-- A slash is a sign where it opens no comment. -/
theorem read_singleSign {c : Char} {rest : List Char} {sign : Token}
    (hc : ¬ (c = '/' ∧ ∃ more, rest = '/' :: more)) (hd : doubleSign? c rest = none)
    (h : singleSign? c = some sign) : Lexeme.read c rest = .token sign 1 := by
  obtain ⟨hquote, hdigit, hword⟩ := plain_of_mem_signs (mem_signs_of_singleSign? h)
  have hslashes : (c == '/' && rest.head? == some '/') = false := by
    rw [Bool.eq_false_iff]
    intro hboth
    obtain ⟨hslash, hhead⟩ := Bool.and_eq_true_iff.1 hboth
    exact hc ⟨beq_iff_eq.1 hslash, List.head?_eq_some_iff.1 (beq_iff_eq.1 hhead)⟩
  unfold Lexeme.read
  simp only [hslashes, hquote, hdigit, hword, hd, h, Bool.false_eq_true, if_false]

namespace LexesTo

variable {rest : List Char} {ts : List Token}

/-- A row of digits that something else follows is one whole number. -/
theorem whole {n : Nat} (hn : (n : Int) ≤ Number.maxInt) (hr : Ends rest) (h : LexesTo rest ts) :
    LexesTo (Nat.toDigits 10 n ++ rest) (.int n :: ts) := by
  obtain ⟨c, piece, hdigits⟩ := List.exists_cons_of_ne_nil (Nat.toDigits_ne_nil : Nat.toDigits 10 n ≠ [])
  have hc : c.isDigit = true := by
    have hmem : c ∈ Nat.toDigits 10 n := by rw [hdigits]; exact List.mem_cons_self
    exact Number.isDigit_toDigits n c hmem
  have hread := readNumber_toDigits hn hr
  rw [hdigits, List.cons_append, List.length_cons, ← read_digit hc] at hread
  rw [hdigits]
  exact token hread h

/-- Characters of words that something else follows are one word. -/
theorem word (c : Char) (piece : List Char) (hc : isWordStart c = true)
    (hp : ∀ d ∈ c :: piece, isWordChar d = true) (hr : Ends rest) (h : LexesTo rest ts) :
    LexesTo (c :: piece ++ rest) (Token.ofWord (String.ofList (c :: piece)) :: ts) := by
  have hread := read_word hc (piece ++ rest)
  rw [← List.cons_append, hr.takeWhile (fun _ hd => hd) hp] at hread
  have hall := token hread h
  rw [isTrivia_ofWord] at hall
  exact hall

/-- The literal form of a text is one token. -/
theorem quoted (text : String) (h : LexesTo rest ts) :
    LexesTo ((Text.quote text).toList ++ rest) (.text text :: ts) := by
  obtain ⟨piece, hquote, hread⟩ := read_quote text rest
  rw [hquote]
  exact token hread h

/-- A sign of one character, where no sign of two characters stands. -/
theorem sign {c : Char} {t : Token} (hc : c ≠ '/') (hd : doubleSign? c rest = none)
    (ht : singleSign? c = some t) (hm : t.isTrivia = false) (h : LexesTo rest ts) :
    LexesTo (c :: rest) (t :: ts) := by
  have hread := read_singleSign (fun hslash => hc hslash.1) hd ht
  have hall := @token rest ts c [] t hread h
  rw [hm] at hall
  exact hall

/-- A sign of one character that begins no sign of two characters. -/
theorem alone {c : Char} {t : Token} (hc : c ≠ '/') (ha : doubleSign? c ['='] = none)
    (ht : singleSign? c = some t) (hm : t.isTrivia = false) (h : LexesTo rest ts) :
    LexesTo (c :: rest) (t :: ts) :=
  sign hc (Lexeme.doubleSign?_of_alone ha rest) ht hm h

end LexesTo

end LandPattern.Script
