import LandPattern.Proofs.Json.Numbers
import LandPattern.Proofs.Script.Quoting

/-!
# Pieces of JSON text

What the reader makes of blanks, signs, words, numbers and quoted texts, wherever they stand. Every
character between quotes is written in a form that stands for it and no other, and words and numbers
end before what follows them.
-/

namespace LandPattern.Json

/-! ## Tokens -/

section

variable {c : Char} {rest : List Char} {reading : Reading} {position next : Position}

/-- The text is over, or goes on with what ends words and numbers. -/
def Stops (rest : List Char) : Prop := ∀ c more, rest = c :: more → isBare c = false

theorem stops_nil : Stops [] := fun _ _ h => by cases h

theorem stops_cons (hc : isBare c = false) (more : List Char) : Stops (c :: more) := by
  rintro d others heq
  obtain ⟨rfl, -⟩ := List.cons.inj heq
  exact hc

/-- A character that completes no token only changes what stands around the next one. -/
theorem tokens_silent (h : stepChar position c = some ([], next)) :
    tokens position (c :: rest) = tokens next rest := by
  rw [tokens, h]
  cases hrest : tokens next rest <;> simp [hrest]

/-- A token is the next step of the reading. -/
theorem run_token {text : List Char} {t : Token}
    (h : tokens .between text = (tokens .between rest).map (t :: ·)) :
    run reading text = (step reading t).bind fun after => run after rest := by
  unfold run
  rw [h]
  cases hrest : tokens .between rest with
  | none => cases step reading t <;> rfl
  | some ts => rfl

theorem run_sign {t : Token} (h : stepBetween c = ([t], .between)) :
    run reading (c :: rest) = (step reading t).bind fun after => run after rest := by
  refine run_token ?_
  rw [tokens, stepChar, h]
  cases hrest : tokens .between rest <;> simp [hrest]

theorem run_blank (h : isBlank c = true) : run reading (c :: rest) = run reading rest := by
  have hstep : stepChar .between c = some ([], .between) := by
    rw [stepChar, stepBetween, if_pos h]
  unfold run
  rw [tokens_silent hstep]

/-- Blanks before a text mean nothing. -/
theorem run_blanks {gap : List Char} (h : ∀ c ∈ gap, isBlank c = true) :
    run reading (gap ++ rest) = run reading rest := by
  induction gap with
  | nil => rfl
  | cons c more ih =>
    rw [List.cons_append, run_blank (h c List.mem_cons_self),
      ih fun d hd => h d (List.mem_cons_of_mem c hd)]

/-- Characters of words and numbers are collected. -/
theorem tokens_collect {done text : List Char} (h : ∀ c ∈ text, isBare c = true) :
    tokens (.bare done) (text ++ rest) = tokens (.bare (text.reverse ++ done)) rest := by
  induction text generalizing done with
  | nil => rfl
  | cons c more ih =>
    have hstep : stepChar (.bare done) c = some ([], .bare (c :: done)) := by
      rw [stepChar, if_pos (h c List.mem_cons_self)]
    rw [List.cons_append, tokens_silent hstep, ih fun d hd => h d (List.mem_cons_of_mem c hd),
      List.reverse_cons, List.append_assoc, List.singleton_append]

/-- What ends a word or a number is read as it is between tokens. -/
theorem tokens_stop {done : List Char} {v : Tree} (h : readBare? done.reverse = some v)
    (hs : Stops rest) :
    tokens (.bare done) rest = (tokens .between rest).map (.leaf v :: ·) := by
  cases rest with
  | nil =>
    rw [tokens, tokens]
    simp only [h]
    rfl
  | cons c more =>
    have hc := hs c more rfl
    rw [tokens, tokens, stepChar, stepChar, hc, h]
    cases hmore : tokens (stepBetween c).2 more <;> simp [hmore]

theorem stepBetween_bare (h : isBare c = true) : stepBetween c = ([], .bare [c]) := by
  rw [isBare, Bool.and_eq_true, Bool.and_eq_true, Bool.not_eq_true', bne_iff_ne,
    Option.isNone_iff_eq_none] at h
  obtain ⟨⟨hblank, hquote⟩, hsign⟩ := h
  unfold stepBetween
  rw [hblank, beq_eq_false_iff_ne.2 hquote, hsign]
  rfl

/-- A word or a number is one token when something follows that ends it. -/
theorem run_bare {text : List Char} {v : Tree} (h : Bare text v) (hs : Stops rest) :
    run reading (text ++ rest) = (step reading (.leaf v)).bind fun after => run after rest := by
  have hreads := h.reads
  refine run_token ?_
  cases text with
  | nil =>
    have hnone : readBare? [] = none := rfl
    rw [hnone] at hreads
    cases hreads
  | cons c more =>
    have hstep : stepChar .between c = some ([], .bare [c]) := by
      rw [stepChar, stepBetween_bare (h.bare c List.mem_cons_self)]
    have hreads : readBare? (more.reverse ++ [c]).reverse = some v := by
      rw [List.reverse_append, List.reverse_reverse]
      exact h.reads
    rw [List.cons_append, tokens_silent hstep,
      tokens_collect fun d hd => h.bare d (List.mem_cons_of_mem c hd), tokens_stop hreads hs]

/-! ## Quoted texts -/

/-- Four digits behind a backslash stand for the character that they number. -/
theorem tokens_unit {done digits : List Char} {n : ℕ} (hl : digits.length = 4)
    (hd : ∀ d ∈ digits, Script.isHexDigit d = true)
    (hv : digits.foldl (fun n d => 16 * n + Script.hexValue d) 0 = n) (hn : n < 0xd800) :
    tokens (.quoted .plain done) ('\\' :: 'u' :: (digits ++ rest)) =
      tokens (.quoted .plain (Char.ofNat n :: done)) rest := by
  obtain ⟨d₁, d₂, d₃, d₄, rfl⟩ : ∃ d₁ d₂ d₃ d₄, digits = [d₁, d₂, d₃, d₄] := by
    match digits, hl with
    | [d₁, d₂, d₃, d₄], _ => exact ⟨d₁, d₂, d₃, d₄, rfl⟩
  have hcollect : ∀ found d, Script.isHexDigit d = true → found.length < 3 →
      stepChar (.quoted (.unit none found) done) d =
        some ([], .quoted (.unit none (d :: found)) done) := by
    intro found d hhex hshort
    simp [stepChar, stepQuoted, hhex, hshort]
  have hlast : stepChar (.quoted (.unit none [d₃, d₂, d₁]) done) d₄ =
      some ([], .quoted .plain (Char.ofNat n :: done)) := by
    have hafter : afterUnit? none n done = some (.quoted .plain (Char.ofNat n :: done)) := by
      unfold afterUnit?
      dsimp only
      rw [if_neg (by omega), if_pos (Or.inl hn)]
    have hvalue : [d₄, d₃, d₂, d₁].reverse.foldl (fun n d => 16 * n + Script.hexValue d) 0 = n := hv
    unfold stepChar stepQuoted
    simp only [hd d₄ (by simp), hvalue, hafter]
    rfl
  have hopen : ∀ others, tokens (.quoted .plain done) ('\\' :: 'u' :: others) =
      tokens (.quoted (.unit none []) done) others := by
    intro others
    rw [tokens_silent rfl, tokens_silent rfl]
  rw [hopen]
  simp only [List.cons_append, List.nil_append]
  rw [tokens_silent (hcollect [] d₁ (hd d₁ (by simp)) (by decide)),
    tokens_silent (hcollect [d₁] d₂ (hd d₂ (by simp)) (by simp)),
    tokens_silent (hcollect [d₂, d₁] d₃ (hd d₃ (by simp)) (by simp)), tokens_silent hlast]

/-- A control character is written by its number, in four digits. -/
theorem control_digits {n : ℕ} (h : n < 0x20) :
    ∃ digits : List Char, digits.length = 4 ∧ (∀ d ∈ digits, Script.isHexDigit d = true) ∧
      digits.foldl (fun n d => 16 * n + Script.hexValue d) 0 = n ∧
      ("\\u00" ++ (if n < 0x10 then "0" else "") ++ String.ofList (Nat.toDigits 16 n)).toList =
        '\\' :: 'u' :: digits := by
  obtain ⟨hhex, hvalue⟩ := Script.hexDigits n
  by_cases hshort : n < 0x10
  · refine ⟨'0' :: '0' :: '0' :: Nat.toDigits 16 n, ?_, ?_, hvalue, ?_⟩
    · rw [Nat.toDigits_of_lt_base hshort]
      rfl
    · simp only [List.forall_mem_cons]
      exact ⟨by decide, by decide, by decide, hhex⟩
    · rw [if_pos hshort, String.toList_append, String.toList_ofList]
      rfl
  · refine ⟨'0' :: '0' :: Nat.toDigits 16 n, ?_, ?_, hvalue, ?_⟩
    · rw [Nat.toDigits_of_base_le (by decide) (by omega), Nat.toDigits_of_lt_base (by omega)]
      rfl
    · simp only [List.forall_mem_cons]
      exact ⟨by decide, by decide, hhex⟩
    · rw [if_neg hshort, String.toList_append, String.toList_ofList]
      rfl

/-- A character is written between quotes in a form that stands for it. -/
theorem tokens_quotedChar (done : List Char) (c : Char) :
    tokens (.quoted .plain done) ((quotedChar c).toList ++ rest) =
      tokens (.quoted .plain (c :: done)) rest := by
  have hletter : ∀ {n : ℕ} {letter : Char}, (c.toNat == n) = true → letter ≠ 'u' →
      escaped? letter = some (Char.ofNat n) →
        tokens (.quoted .plain done) ('\\' :: letter :: rest) =
          tokens (.quoted .plain (c :: done)) rest := by
    intro n letter hn hne he
    have hstep : stepChar (.quoted .escape done) letter =
        some ([], .quoted .plain (c :: done)) := by
      rw [← beq_iff_eq.1 hn, Char.ofNat_toNat] at he
      unfold stepChar stepQuoted
      simp only [beq_eq_false_iff_ne.2 hne, he]
      rfl
    rw [tokens_silent rfl, tokens_silent hstep]
  unfold quotedChar
  dsimp only
  generalize hform : "\\u00" ++ (if c.toNat < 0x10 then "0" else "") ++
    String.ofList (Nat.toDigits 16 c.toNat) = numbered
  split_ifs with hquote hescape hback htab hline hfeed hreturn hcontrol
  · exact hletter hquote (by decide) (by decide)
  · exact hletter hescape (by decide) (by decide)
  · exact hletter hback (by decide) (by decide)
  · exact hletter htab (by decide) (by decide)
  · exact hletter hline (by decide) (by decide)
  · exact hletter hfeed (by decide) (by decide)
  · exact hletter hreturn (by decide) (by decide)
  · obtain ⟨digits, hlength, hhex, hvalue, htext⟩ := control_digits hcontrol
    rw [← hform, htext, List.cons_append, List.cons_append, tokens_unit hlength hhex hvalue (by omega),
      Char.ofNat_toNat]
  · -- any other character stands for itself
    have hplain : stepChar (.quoted .plain done) c = some ([], .quoted .plain (c :: done)) := by
      have hneither : (c == '"') = false ∧ (c == '\\') = false := by
        rw [beq_eq_false_iff_ne, beq_eq_false_iff_ne]
        constructor
        · rintro rfl
          exact hquote rfl
        · rintro rfl
          exact hescape rfl
      unfold stepChar stepQuoted
      simp only [hneither.1, hneither.2, hcontrol, Bool.false_eq_true, if_false]
    have hitself : c.toString.toList = [c] := by simp
    rw [hitself, List.singleton_append, tokens_silent hplain]

/-- The characters of a quoted text. -/
theorem toList_quoted (s : String) :
    (quoted s).toList = '"' :: (s.toList.flatMap (fun c => (quotedChar c).toList) ++ ['"']) := by
  rw [quoted, String.toList_append, Script.toList_foldl_append]
  rfl

variable (rest) in
/-- What is read up to the closing quote is the text. -/
theorem tokens_quotedChars (done text : List Char) :
    tokens (.quoted .plain done) (text.flatMap (fun c => (quotedChar c).toList) ++ '"' :: rest) =
      (tokens .between rest).map (.leaf (.text (String.ofList (done.reverse ++ text))) :: ·) := by
  induction text generalizing done with
  | nil =>
    have hclose : stepChar (.quoted .plain done) '"' =
        some ([.leaf (.text (String.ofList done.reverse))], .between) := rfl
    rw [List.append_nil, List.flatMap_nil, List.nil_append, tokens, hclose]
    cases hrest : tokens .between rest <;> simp [hrest]
  | cons c more ih =>
    rw [List.flatMap_cons, List.append_assoc, tokens_quotedChar, ih, List.reverse_cons,
      List.append_assoc]
    rfl

/-- What is written between quotes is one token, and the token is the text. -/
theorem run_quoted (s : String) :
    run reading ((quoted s).toList ++ rest) =
      (step reading (.leaf (.text s))).bind fun after => run after rest := by
  refine run_token ?_
  have hopen : stepChar .between '"' = some ([], .quoted .plain []) := rfl
  have hread := tokens_quotedChars rest [] s.toList
  rw [List.reverse_nil, List.nil_append, String.ofList_toList] at hread
  rw [toList_quoted, List.cons_append, tokens_silent hopen, List.append_assoc]
  exact hread

end

end LandPattern.Json
