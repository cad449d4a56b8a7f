import LandPattern.Script.Lexeme

/-!
# What lexemes hold

A token is read in one of seven ways, told apart by what the text begins with. A text between quotes
is never longer than what writes it: an escape takes at least as many bytes as the character it
stands for.
-/

namespace LandPattern.Script

/-- A blank that is no line end. -/
def isInlineBlank (c : Char) : Bool := Text.isBlank c && c != '\n'

theorem isWordChar_of_isWordStart {c : Char} (h : isWordStart c = true) : isWordChar c = true := by
  simp only [isWordStart, isWordChar, Char.isAlphanum, Bool.or_eq_true] at h ⊢
  exact h.imp_left .inl

/-- A token at the front of a text that begins with `c`, with the number of its characters, by what
the text begins with. -/
inductive Lexeme.Reads (c : Char) (rest : List Char) : Token → Nat → Prop where
  | comment {more : List Char} (hc : c = '/') (hr : rest = '/' :: more) :
    Reads c rest .comment (restOfLine (c :: rest)).length
  | quoted {value : String} {length : Nat} (hc : c = Char.ofNat 0x22)
    (h : readText .plain [] 1 1 rest = .ok (value, length)) : Reads c rest (.text value) length
  | number {token : Token} {length : Nat} (hc : c.isDigit = true)
    (h : readNumber (c :: rest) = .token token length) : Reads c rest token length
  | word (hc : isWordStart c = true) :
    Reads c rest (Token.ofWord (String.ofList ((c :: rest).takeWhile isWordChar)))
      ((c :: rest).takeWhile isWordChar).length
  | double {sign : Token} {more : List Char} (hr : rest = '=' :: more)
    (h : doubleSign? c ['='] = some sign) : Reads c rest sign 2
  | single {sign : Token} (hc : ¬ (c = '/' ∧ ∃ more, rest = '/' :: more))
    (hd : doubleSign? c rest = none) (h : singleSign? c = some sign) : Reads c rest sign 1
  | blank (hc : Text.isBlank c = true) (hl : c ≠ '\n') :
    Reads c rest .blank ((c :: rest).takeWhile isInlineBlank).length

namespace Lexeme

theorem doubleSign?_eq_some {c : Char} {rest : List Char} {sign : Token}
    (h : doubleSign? c rest = some sign) :
    ∃ more, rest = '=' :: more ∧ doubleSign? c ['='] = some sign := by
  unfold doubleSign? at h
  split at h
  · exact ⟨_, rfl, h⟩
  · cases h

/-- Only an equals sign is the second character of a sign. -/
theorem doubleSign?_of_ne {c : Char} {rest : List Char} (h : ∀ more, rest ≠ '=' :: more) :
    doubleSign? c rest = none := by
  cases hsign : doubleSign? c rest with
  | none => rfl
  | some sign =>
    obtain ⟨more, hrest, -⟩ := doubleSign?_eq_some hsign
    exact absurd hrest (h more)

/-- A character that begins no sign of two characters begins none whatever follows it. -/
theorem doubleSign?_of_alone {c : Char} (h : doubleSign? c ['='] = none) (rest : List Char) :
    doubleSign? c rest = none := by
  cases hsign : doubleSign? c rest with
  | none => rfl
  | some sign =>
    obtain ⟨more, -, hdouble⟩ := doubleSign?_eq_some hsign
    cases h.symm.trans hdouble

/-- A token is read in one of these ways. -/
theorem reads_of_read {c : Char} {rest : List Char} {token : Token} {length : Nat}
    (h : Lexeme.read c rest = .token token length) : Reads c rest token length := by
  unfold Lexeme.read at h
  dsimp only at h
  split at h
  · rename_i hslashes
    cases h
    obtain ⟨hc, hhead⟩ := Bool.and_eq_true_iff.1 hslashes
    obtain ⟨more, rfl⟩ := List.head?_eq_some_iff.1 (beq_iff_eq.1 hhead)
    exact .comment (beq_iff_eq.1 hc) rfl
  rename_i hslashes
  split at h
  · rename_i hquote
    split at h
    · rename_i hread
      cases h
      exact .quoted (beq_iff_eq.1 hquote) hread
    · cases h
  split at h
  · exact .number ‹_› h
  split at h
  · cases h
    exact .word ‹_›
  split at h
  · rename_i hsign
    cases h
    obtain ⟨more, hrest, hdouble⟩ := doubleSign?_eq_some hsign
    exact .double hrest hdouble
  rename_i hdouble
  split at h
  · cases h
    refine .single ?_ hdouble ‹_›
    rintro ⟨rfl, more, rfl⟩
    exact hslashes rfl
  rename_i hsingle
  split at h
  · rename_i hblank
    cases h
    refine .blank hblank ?_
    rintro rfl
    cases hsingle
  · cases h

end Lexeme

/-- Bytes that were read and have not yet given a character. -/
def TextPart.pending : TextPart → Nat
  | .plain => 0
  | .escape _ => 1
  | .numeric _ => 2
  | .digits _ found => found.length + 3

/-- The characters that a one-letter escape stands for take one byte. -/
theorem utf8Size_of_escaped? {c e : Char} (h : escaped? c = some e) : e.utf8Size = 1 := by
  unfold escaped? at h
  split at h
  · cases h
    decide
  split at h
  · cases h
    decide
  split at h
  · cases h
    decide
  split at h
  · cases h
    decide
  split at h
  · rename_i hc
    cases h
    simp only [Bool.or_eq_true, beq_iff_eq] at hc
    rcases hc with (rfl | rfl) | rfl <;> decide
  · cases h

/-- One more character of a text between quotes is read behind so many bytes: what is begun then,
and the characters so far in reverse. -/
inductive TextMove (size : Nat) (c : Char) (done : List Char) :
    TextPart → TextPart → List Char → Prop where
  | backslash (hc : c = Char.ofNat 0x5c) : TextMove size c done .plain (.escape size) done
  | char : TextMove size c done .plain .plain (c :: done)
  | numeric {start} (hc : c = 'u') : TextMove size c done (.escape start) (.numeric start) done
  | escaped {start e} (he : escaped? c = some e) :
    TextMove size c done (.escape start) .plain (e :: done)
  | brace {start} : TextMove size c done (.numeric start) (.digits start []) done
  | digit {start digits} :
    TextMove size c done (.digits start digits) (.digits start (c :: digits)) done
  | close {start digits e} (hd : digits ≠ []) :
    TextMove size c done (.digits start digits) .plain (e :: done)

/-- What one more character does to a text between quotes, whatever follows it: the text goes on,
or the quote ends it, or the character does not fit, or the digits before it are those of no
character. -/
inductive TextStep (part : TextPart) (done : List Char) (length size : Nat) (c : Char) : Prop where
  | moves {next : TextPart} {found : List Char} (h : TextMove size c done part next found)
    (hread : ∀ rest, readText part done length size (c :: rest) =
      readText next found (length + 1) (size + c.utf8Size) rest)
  | ends (hp : part = .plain) (hread : ∀ rest, readText part done length size (c :: rest) =
      .ok (String.ofList done.reverse, length + 1))
  | stops (hread : ∀ rest, readText part done length size (c :: rest) =
      .error (readText.stopped part size))
  | invalid {start : Nat} {digits : List Char} (hp : part = .digits start digits)
    (hread : ∀ rest, readText part done length size (c :: rest) =
      .error (.invalidCodePoint, start, start + 2))

theorem textStep (part : TextPart) (done : List Char) (length size : Nat) (c : Char) :
    TextStep part done length size c := by
  cases part with
  | plain =>
    by_cases hquote : c == Char.ofNat 0x22
    · exact .ends rfl fun rest => by simp [readText, hquote]
    by_cases hback : c == Char.ofNat 0x5c
    · exact .moves (.backslash (beq_iff_eq.1 hback)) fun rest => by simp [readText, hquote, hback]
    by_cases hend : c == '\n' || c == '\r'
    · exact .stops fun rest => by simp [readText, hquote, hback, hend]
    · exact .moves .char fun rest => by simp [readText, hquote, hback, hend]
  | escape start =>
    by_cases hletter : c == 'u'
    · exact .moves (.numeric (beq_iff_eq.1 hletter)) fun rest => by simp [readText, hletter]
    cases he : escaped? c with
    | some e => exact .moves (.escaped he) fun rest => by simp [readText, hletter, he]
    | none => exact .stops fun rest => by simp [readText, hletter, he]
  | numeric start =>
    by_cases hopen : c == Char.ofNat 0x7b
    · exact .moves .brace fun rest => by simp [readText, hopen]
    · exact .stops fun rest => by simp [readText, hopen]
  | digits start digits =>
    by_cases hdigit : isHexDigit c && digits.length < 6
    · exact .moves .digit fun rest => by simp [readText, hdigit]
    by_cases hclose : c == Char.ofNat 0x7d && !digits.isEmpty
    · have hd : digits ≠ [] := by
        rintro rfl
        simp at hclose
      cases he : charOfHex? digits.reverse with
      | some e =>
        exact .moves (.close (e := e) hd) fun rest => by simp [readText, hdigit, hclose, he]
      | none => exact .invalid rfl fun rest => by simp [readText, hdigit, hclose, he]
    · exact .stops fun rest => by simp [readText, hdigit, hclose]

/-- A character gives no more bytes of the text than have been read for it. -/
theorem TextMove.size_le {size : Nat} {c : Char} {done found : List Char} {part next : TextPart}
    (h : TextMove size c done part next found) :
    byteLength found + next.pending ≤ byteLength done + part.pending + c.utf8Size := by
  have hc : 1 ≤ c.utf8Size := c.utf8Size_pos
  cases h with
  | backslash _ | numeric _ | brace | digit =>
    simp only [TextPart.pending, List.length_nil, List.length_cons]
    omega
  | char =>
    simp only [byteLength_cons, TextPart.pending]
    omega
  | escaped he =>
    simp only [byteLength_cons, utf8Size_of_escaped? he, TextPart.pending]
    omega
  | @close start digits e hd =>
    have hdigits : 1 ≤ digits.length := List.length_pos_iff.2 hd
    have hsize : e.utf8Size ≤ 4 := e.utf8Size_le_four
    simp only [byteLength_cons, TextPart.pending]
    omega

/-- A text between quotes is no longer than what was read for it. -/
theorem utf8ByteSize_of_readText {part : TextPart} {done text : List Char} {length size n : Nat}
    {value : String} (h : readText part done length size text = .ok (value, n)) :
    value.utf8ByteSize ≤ byteLength done + part.pending + byteLength text := by
  induction text generalizing part done length size with
  | nil => cases h
  | cons c rest ih =>
    rw [byteLength_cons]
    cases textStep part done length size c with
    | moves hmove hread =>
      rw [hread] at h
      have hrest := ih h
      have hsize := hmove.size_le
      omega
    | ends _ hread =>
      rw [hread] at h
      cases h
      rw [utf8ByteSize_ofList, byteLength_reverse]
      omega
    | stops hread | invalid _ hread =>
      rw [hread] at h
      cases h

/-- The characters that a token holds, between quotes or as a name. -/
def Token.content? : Token → Option String
  | .text value | .name value => some value
  | _ => none

theorem content?_of_readNumber {text : List Char} {t : Token} {length : Nat}
    (h : readNumber text = .token t length) : t.content? = none := by
  unfold readNumber at h
  dsimp only at h
  repeat' split at h
  all_goals first | (cases h; rfl) | cases h

theorem ofWord_ne_text {word value : String} : Token.ofWord word ≠ .text value := by
  intro h
  unfold Token.ofWord at h
  cases hword : Token.words.lookup word with
  | none =>
    rw [hword] at h
    cases h
  | some t =>
    rw [hword] at h
    obtain ⟨before, after, heq, -⟩ := List.lookup_eq_some_iff.1 hword
    have hmem : (word, t) ∈ Token.words := by
      rw [heq]
      exact List.mem_append_right _ List.mem_cons_self
    simp only [Option.getD_some] at h
    subst h
    simp [Token.words] at hmem

theorem content?_of_doubleSign? {c : Char} {rest : List Char} {t : Token}
    (h : doubleSign? c rest = some t) : t.content? = none := by
  unfold doubleSign? at h
  repeat' split at h
  all_goals first | (cases h; rfl) | cases h

theorem ite_ne {α : Type} {condition : Prop} [Decidable condition] {yes no value : α}
    (hy : yes ≠ value) (hn : no ≠ value) : (if condition then yes else no) ≠ value := by
  split
  · exact hy
  · exact hn

theorem content?_of_singleSign? {c : Char} {t : Token} (h : singleSign? c = some t) :
    t.content? = none := by
  cases t with
  | text value | name value =>
    refine absurd h ?_
    unfold singleSign?
    repeat' refine ite_ne (by simp) ?_
    simp
  | _ => rfl

/-- What a token between quotes holds is no longer than the text it stands in front of. -/
theorem utf8ByteSize_of_read {c : Char} {rest : List Char} {value : String} {length : Nat}
    (h : Lexeme.read c rest = .token (.text value) length) :
    value.utf8ByteSize ≤ byteLength (c :: rest) := by
  generalize htoken : Token.text value = token at h
  cases Lexeme.reads_of_read h with
  | comment | blank => cases htoken
  | quoted hc hread =>
    cases htoken
    have hsize := utf8ByteSize_of_readText hread
    simp only [byteLength_nil, TextPart.pending, byteLength_cons] at hsize ⊢
    omega
  | number hc hnumber =>
    subst htoken
    cases content?_of_readNumber hnumber
  | word => exact absurd htoken.symm ofWord_ne_text
  | double hr hsign =>
    subst htoken
    cases content?_of_doubleSign? hsign
  | single hc hd hsign =>
    subst htoken
    cases content?_of_singleSign? hsign

/-- Every text among the tokens that were read is no longer than what they were read from. -/
theorem utf8ByteSize_of_readLexemes {bound skip pos : Nat} {tokens : List Placed}
    {problems : List Diagnostic} {text : List Char} (hb : byteLength text ≤ bound)
    (hold : ∀ t ∈ tokens, ∀ value, t.token = .text value → value.utf8ByteSize ≤ bound) :
    ∀ t ∈ (readLexemes skip pos tokens problems text).1, ∀ value, t.token = .text value →
      value.utf8ByteSize ≤ bound := by
  induction text generalizing skip pos tokens problems with
  | nil =>
    intro t ht
    exact hold t (List.mem_reverse.1 ht)
  | cons c rest ih =>
    have hrest : byteLength rest ≤ bound := by
      rw [byteLength_cons] at hb
      omega
    cases skip with
    | succ more => exact ih hrest hold
    | zero =>
      cases hread : Lexeme.read c rest with
      | token token length =>
        simp only [readLexemes, hread]
        refine ih hrest fun t ht value hvalue => ?_
        rcases List.mem_cons.1 ht with rfl | htail
        · dsimp only at hvalue
          subst hvalue
          exact Nat.le_trans (utf8ByteSize_of_read hread) hb
        · exact hold t htail value hvalue
      | broken problem start stop length =>
        simp only [readLexemes, hread]
        exact ih hrest hold

/-- Every text among the tokens of a source is no longer than the source. -/
theorem utf8ByteSize_of_tokenize {source value : String} {tokens : List Placed} {t : Placed}
    (h : tokenize source = .ok tokens) (ht : t ∈ tokens) (hvalue : t.token = .text value) :
    value.utf8ByteSize ≤ source.utf8ByteSize := by
  have hall : ∀ t ∈ (readLexemes 0 0 [] [] source.toList).1, ∀ value, t.token = .text value →
      value.utf8ByteSize ≤ source.utf8ByteSize :=
    utf8ByteSize_of_readLexemes (Nat.le_of_eq (byteLength_toList source))
      fun _ hnone => absurd hnone List.not_mem_nil
  unfold tokenize at h
  split at h
  · rename_i found hfound
    cases h
    rw [hfound] at hall
    exact hall t ht value hvalue
  · cases h

end LandPattern.Script
