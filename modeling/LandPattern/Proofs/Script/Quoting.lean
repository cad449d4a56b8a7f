import LandPattern.Script.Lexeme
import LandPattern.Text.Quoted

/-!
# Quoted texts are read back

Between its quotes, the literal form of a text writes every character in a form that stands for that
character and no other: by itself, by a letter behind a backslash, or by its number. What is read
from the form of a text is therefore the text.
-/

namespace LandPattern.Script

/-! ## Characters by their numbers -/

theorem hexValue_digitChar {d : Nat} (h : d < 16) :
    isHexDigit d.digitChar = true ∧ hexValue d.digitChar = d := by
  have hall : ∀ d : Fin 16, isHexDigit d.val.digitChar = true ∧ hexValue d.val.digitChar = d.val := by
    decide
  exact hall ⟨d, h⟩

/-- The digits of a number are digits, and denote the number. -/
theorem hexDigits (n : Nat) :
    (∀ d ∈ Nat.toDigits 16 n, isHexDigit d = true) ∧
      (Nat.toDigits 16 n).foldl (fun n c => 16 * n + hexValue c) 0 = n := by
  induction n using Nat.strongRecOn with
  | ind n ih =>
    by_cases hsmall : n < 16
    · have hdigit := hexValue_digitChar hsmall
      rw [Nat.toDigits_of_lt_base hsmall]
      refine ⟨fun d hd => ?_, ?_⟩
      · rw [List.mem_singleton.1 hd]
        exact hdigit.1
      · rw [List.foldl_cons, List.foldl_nil, hdigit.2]
        omega
    · obtain ⟨hdigits, hvalue⟩ := ih (n / 16) (by omega)
      have hlast := hexValue_digitChar (Nat.mod_lt n (by decide : 0 < 16))
      rw [Nat.toDigits_of_base_le (by decide) (by omega)]
      refine ⟨fun d hd => ?_, ?_⟩
      · rcases List.mem_append.1 hd with hfront | hback
        · exact hdigits d hfront
        · rw [List.mem_singleton.1 hback]
          exact hlast.1
      · rw [List.foldl_append, hvalue, List.foldl_cons, List.foldl_nil, hlast.2]
        omega

/-- A character has a number of at most six digits, and the number names the character. -/
theorem charOfHex?_toDigits (c : Char) :
    (Nat.toDigits 16 c.toNat).length ≤ 6 ∧ charOfHex? (Nat.toDigits 16 c.toNat) = some c := by
  have hvalid : c.toNat.isValidChar := c.valid
  have hsmall : c.toNat < 16 ^ 6 := by
    rcases hvalid with hlow | ⟨-, hhigh⟩
    · omega
    · omega
  refine ⟨(Nat.length_toDigits_le_iff (by decide) (by decide)).2 hsmall, ?_⟩
  have hvalue := (hexDigits c.toNat).2
  unfold charOfHex?
  simp only [hvalue, if_pos hvalid, Char.ofNat_toNat]

/-! ## Reading inside quotes -/

section

variable (done rest : List Char) (length size : Nat)

/-- The digits between the braces of a numeric form are collected. -/
theorem readText_digits (start : Nat) {digits found : List Char}
    (h : ∀ d ∈ digits, isHexDigit d = true) (hl : found.length + digits.length ≤ 6) :
    ∃ reached, readText (.digits start found) done length size (digits ++ rest) =
      readText (.digits start (digits.reverse ++ found)) done (length + digits.length) reached
        rest := by
  induction digits generalizing found length size with
  | nil => exact ⟨size, rfl⟩
  | cons d more ih =>
    have hd := h d List.mem_cons_self
    have hroom : found.length < 6 := by
      rw [List.length_cons] at hl
      omega
    have hmore : (d :: found).length + more.length ≤ 6 := by
      rw [List.length_cons] at hl ⊢
      omega
    obtain ⟨reached, hread⟩ := ih (length + 1) (size + d.utf8Size)
      (fun e he => h e (List.mem_cons_of_mem _ he)) hmore
    refine ⟨reached, ?_⟩
    have hstep : readText (.digits start found) done length size (d :: (more ++ rest)) =
        readText (.digits start (d :: found)) done (length + 1) (size + d.utf8Size)
          (more ++ rest) := by
      rw [readText.eq_def]
      simp only [hd, Bool.true_and, decide_eq_true_eq, if_pos hroom]
    rw [List.cons_append, hstep, hread, List.reverse_cons, List.append_assoc, List.length_cons,
      Nat.add_assoc, Nat.add_comm 1]
    rfl

theorem readText_byNumber (c : Char) :
    ∃ reached, readText .plain done length size ((Text.byNumber c).toList ++ rest) =
      readText .plain (c :: done) (length + (Text.byNumber c).toList.length) reached rest := by
  obtain ⟨hlength, hchar⟩ := charOfHex?_toDigits c
  have hform : (Text.byNumber c).toList =
      ['\\', 'u', '\x7b'] ++ Nat.toDigits 16 c.toNat ++ ['\x7d'] := by
    simp [Text.byNumber]
  have hroom : ([] : List Char).length + (Nat.toDigits 16 c.toNat).length ≤ 6 := by
    simpa using hlength
  obtain ⟨reached, hread⟩ := readText_digits done ('\x7d' :: rest) (length + 3) (size + 3) size
    (hexDigits c.toNat).1 hroom
  refine ⟨reached + 1, ?_⟩
  have hopen : ∀ others, readText .plain done length size ('\\' :: 'u' :: '\x7b' :: others) =
      readText (.digits size []) done (length + 3) (size + 3) others := fun _ => rfl
  have hne : ((Nat.toDigits 16 c.toNat).reverse ++ []).isEmpty = false := by
    simp [Nat.toDigits_ne_nil]
  have hclose : readText (.digits size ((Nat.toDigits 16 c.toNat).reverse ++ [])) done
      (length + 3 + (Nat.toDigits 16 c.toNat).length) reached ('\x7d' :: rest) =
        readText .plain (c :: done) (length + 3 + (Nat.toDigits 16 c.toNat).length + 1)
          (reached + 1) rest := by
    have hnone : isHexDigit '\x7d' = false := by decide
    rw [readText.eq_def]
    simp only [hnone, Bool.false_and, Bool.false_eq_true, if_false, hne, Bool.not_false,
      Bool.and_true]
    rw [if_pos (by decide), List.append_nil, List.reverse_reverse, hchar]
    rfl
  rw [hform, List.append_assoc, List.append_assoc]
  simp only [List.cons_append, List.nil_append]
  rw [hopen, hread, hclose]
  congr 1
  simp only [List.length_cons, List.length_append, List.length_nil]
  omega

/-- What is read from the form of a character is the character. -/
theorem readText_quotedChar (c : Char) :
    ∃ reached, readText .plain done length size ((Text.quotedChar c).toList ++ rest) =
      readText .plain (c :: done) (length + (Text.quotedChar c).toList.length) reached rest := by
  unfold Text.quotedChar
  split
  · rename_i h
    obtain rfl := beq_iff_eq.1 h
    exact ⟨_, rfl⟩
  split
  · rename_i h
    obtain rfl := beq_iff_eq.1 h
    exact ⟨_, rfl⟩
  split
  · rename_i h
    obtain rfl := beq_iff_eq.1 h
    exact ⟨_, rfl⟩
  split
  · rename_i h
    obtain rfl := beq_iff_eq.1 h
    exact ⟨_, rfl⟩
  split
  · rename_i h
    obtain rfl := beq_iff_eq.1 h
    exact ⟨_, rfl⟩
  split
  · rename_i h
    obtain rfl := beq_iff_eq.1 h
    exact ⟨_, rfl⟩
  split
  · exact readText_byNumber done rest length size c
  · rename_i hreturn hline hescape hquote _
    refine ⟨size + c.utf8Size, ?_⟩
    have hform : c.toString.toList = [c] := by simp
    rw [hform, List.singleton_append, readText.eq_def]
    simp only [hquote, hescape, hline, hreturn, Bool.or_self, Bool.false_eq_true, if_false]
    rfl

/-- What is read from the form of a text, up to the closing quote, is the text. -/
theorem readText_quotedChars (text : List Char) :
    readText .plain done length size
        (text.flatMap (fun c => (Text.quotedChar c).toList) ++ '"' :: rest) =
      .ok (String.ofList (done.reverse ++ text),
        length + (text.flatMap fun c => (Text.quotedChar c).toList).length + 1) := by
  induction text generalizing done length size with
  | nil =>
    rw [List.append_nil]
    rfl
  | cons c more ih =>
    obtain ⟨reached, hread⟩ := readText_quotedChar done
      (more.flatMap (fun c => (Text.quotedChar c).toList) ++ '"' :: rest) length size c
    rw [List.flatMap_cons, List.append_assoc, hread, ih, List.reverse_cons, List.append_assoc,
      List.length_append, Nat.add_assoc length]
    rfl

end

/-- The characters of texts that are written one behind the other, one for each character. -/
theorem toList_foldl_append (form : Char → String) (chars : List Char) (out : String) :
    (chars.foldl (fun out c => out ++ form c) out).toList =
      out.toList ++ chars.flatMap fun c => (form c).toList := by
  induction chars generalizing out with
  | nil => simp
  | cons c more ih =>
    rw [List.foldl_cons, ih, String.toList_append, List.flatMap_cons, List.append_assoc]

/-- The characters of the literal form of a text. -/
theorem toList_quote (text : String) :
    (Text.quote text).toList =
      '"' :: (text.toList.flatMap (fun c => (Text.quotedChar c).toList) ++ ['"']) := by
  rw [Text.quote, String.toList_append, toList_foldl_append]
  rfl

theorem read_quoted {rest : List Char} {value : String} {length : Nat}
    (h : readText .plain [] 1 1 rest = .ok (value, length)) :
    Lexeme.read (Char.ofNat 0x22) rest = .token (.text value) length := by
  simp [Lexeme.read, h]

/-- Reading inverts quoting: the literal form of a text is one token, and the token is the text. -/
theorem read_quote (text : String) (rest : List Char) :
    ∃ piece, (Text.quote text).toList = '"' :: piece ∧
      Lexeme.read '"' (piece ++ rest) = .token (.text text) (piece.length + 1) := by
  refine ⟨_, toList_quote text, ?_⟩
  have hread := readText_quotedChars [] rest 1 1 text.toList
  have hlength : 1 + (text.toList.flatMap fun c => (Text.quotedChar c).toList).length + 1 =
      (text.toList.flatMap (fun c => (Text.quotedChar c).toList) ++ ['"']).length + 1 := by
    rw [List.length_append, List.length_singleton]
    omega
  rw [List.reverse_nil, List.nil_append, String.ofList_toList, hlength] at hread
  rw [List.append_assoc, List.singleton_append]
  exact read_quoted hread

end LandPattern.Script
