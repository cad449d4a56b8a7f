import LandPattern.Proofs.Script.LongestMatch

/-!
# Reading on after a number out of range

The problems of a text are those of its parts, each moved to where its part stands. Behind a whole
number that does not fit, the reading goes on one character too late: that character is stepped over
together with the number. Where it is a sign or a blank nothing comes of it. Where it is a quote,
the first slash of a comment or a character that begins no token, problems appear or disappear.
-/

namespace LandPattern.Script

/-! ## Problems of a text -/

/-- The lexical problems that are reported for a source. -/
def lexicalProblems (source : String) : List Diagnostic :=
  match tokenize source with
  | .ok _ => []
  | .error problems => problems

/-- The problems that are found in a text. -/
def problemsIn (text : List Char) : List Diagnostic := (readLexemes 0 0 [] [] text).2

theorem lexicalProblems_eq (source : String) :
    lexicalProblems source = problemsIn source.toList := by
  unfold lexicalProblems tokenize problemsIn
  split
  · rename_i h
    split at h
    · rename_i hfound
      rw [hfound]
    · cases h
  · rename_i h
    split at h
    · cases h
    · rename_i hfound
      cases h
      rw [hfound]

/-- The place that many bytes later. -/
def Span.moved (offset : Nat) (s : Span) : Span := ⟨s.start + offset, s.stop + offset⟩

/-- The diagnostic of a text that stands that many bytes later. -/
def Diagnostic.moved (offset : Nat) (d : Diagnostic) : Diagnostic :=
  { d with labels := d.labels.map fun l => { l with span := l.span.moved offset } }

namespace Diagnostic

@[simp] theorem moved_moved (offset more : Nat) (d : Diagnostic) :
    (d.moved more).moved offset = d.moved (offset + more) := by
  simp [moved, Span.moved, Nat.add_comm, Nat.add_left_comm]

@[simp] theorem map_moved_moved (offset more : Nat) (ds : List Diagnostic) :
    (ds.map (moved more)).map (moved offset) = ds.map (moved (offset + more)) := by
  simp [Function.comp_def]

@[simp] theorem map_moved_zero (ds : List Diagnostic) : ds.map (moved 0) = ds := by
  have hsame : ∀ d : Diagnostic, d.moved 0 = d := fun d =>
    congrArg (mk d.problem) (List.map_id d.labels)
  exact (List.map_congr_left fun d _ => hsame d).trans (List.map_id ds)

end Diagnostic

/-- Reading on adds the problems of the rest of the text, wherever it stands. -/
theorem readLexemes_snd (skip pos : Nat) (tokens : List Placed) (problems : List Diagnostic)
    (text : List Char) : (readLexemes skip pos tokens problems text).2 =
      problems.reverse ++ ((readLexemes skip 0 [] [] text).2).map (Diagnostic.moved pos) := by
  induction text generalizing skip pos tokens problems with
  | nil => simp [readLexemes]
  | cons c rest ih =>
    cases skip with
    | succ more =>
      rw [readLexemes, readLexemes, ih, ih more (0 + c.utf8Size)]
      simp
    | zero =>
      cases hread : Lexeme.read c rest with
      | token token length =>
        simp only [readLexemes, hread]
        rw [ih, ih _ (0 + c.utf8Size)]
        simp
      | broken problem start stop length =>
        have hmoved : Diagnostic.single problem ⟨pos + start, pos + stop⟩ problem.about =
            (Diagnostic.single problem ⟨0 + start, 0 + stop⟩ problem.about).moved pos := by
          simp [Diagnostic.single, Diagnostic.moved, Span.moved, Nat.add_comm]
        simp only [readLexemes, hread]
        rw [ih, ih _ (0 + c.utf8Size)]
        simp [hmoved]

theorem readLexemes_rest (pos : Nat) (tokens : List Placed) (problems : List Diagnostic)
    (text : List Char) : (readLexemes 0 pos tokens problems text).2 =
      problems.reverse ++ (problemsIn text).map (Diagnostic.moved pos) :=
  readLexemes_snd 0 pos tokens problems text

/-- A text that is stepped over to its end has nothing more to read. -/
theorem readLexemes_beyond {skip : Nat} {text : List Char} (h : text.length ≤ skip) (pos : Nat)
    (tokens : List Placed) (problems : List Diagnostic) :
    readLexemes skip pos tokens problems text = (tokens.reverse, problems.reverse) := by
  induction text generalizing skip pos with
  | nil => rfl
  | cons c rest ih =>
    rw [List.length_cons] at h
    obtain ⟨more, rfl⟩ : ∃ more, skip = more + 1 := ⟨skip - 1, by omega⟩
    exact ih (Nat.le_of_succ_le_succ h) _

/-- A token at the front of a text has no problems. -/
theorem problemsIn_token {c : Char} (piece : List Char) {rest : List Char} {token : Token}
    (h : Lexeme.read c (piece ++ rest) = .token token (piece.length + 1)) :
    problemsIn (c :: (piece ++ rest)) =
      (problemsIn rest).map (Diagnostic.moved (byteLength (c :: piece))) := by
  rw [problemsIn, readLexemes_token h, readLexemes_rest, Nat.zero_add]
  rfl

/-- Whether a sign of equality is read alone or with its neighbours, it has no problems. -/
theorem problemsIn_equals (more : List Char) :
    problemsIn ('=' :: more) = (problemsIn more).map (Diagnostic.moved 1) := by
  induction more with
  | nil => exact problemsIn_token [] (read_singleSign (fun hslash => by cases hslash.1) rfl rfl)
  | cons d rest ih =>
    by_cases hd : d = '='
    · subst hd
      have htwo : problemsIn ('=' :: '=' :: rest) = (problemsIn rest).map (Diagnostic.moved 2) :=
        problemsIn_token ['='] (read_doubleSign rfl)
      rw [htwo, ih, Diagnostic.map_moved_moved]
    · have hnone : doubleSign? '=' (d :: rest) = none :=
        Lexeme.doubleSign?_of_ne fun _ heq => hd (List.cons.inj heq).1
      exact problemsIn_token [] (read_singleSign (fun hslash => by cases hslash.1) hnone rfl)

/-- A row of blanks has no problems, wherever it is cut. -/
theorem problemsIn_blanks {run : List Char} (hr : ∀ d ∈ run, isInlineBlank d = true)
    {rest : List Char} (he : ∀ d more, rest = d :: more → isInlineBlank d = false) :
    problemsIn (run ++ rest) = (problemsIn rest).map (Diagnostic.moved (byteLength run)) := by
  cases run with
  | nil => simp
  | cons d run =>
    obtain ⟨hblank, hline⟩ : Text.isBlank d = true ∧ d ≠ '\n' := by
      simpa [isInlineBlank] using hr d List.mem_cons_self
    have hrow : (d :: (run ++ rest)).takeWhile isInlineBlank = d :: run := by
      rw [← List.cons_append, List.takeWhile_append_of_pos hr]
      cases rest with
      | nil => exact List.append_nil _
      | cons e more => rw [List.takeWhile_cons_of_neg (by simp [he e more rfl]), List.append_nil]
    have hread : Lexeme.read d (run ++ rest) = .token .blank (run.length + 1) := by
      rw [read_blank hblank hline, hrow, List.length_cons]
    exact problemsIn_token run hread

/-! ## A number out of range -/

/-- The text is empty or begins with a sign or a blank: what it begins with is a token that is
neither a comment nor a text between quotes. -/
def BeginsPlainly (behind : List Char) : Prop := ∀ c more, behind = c :: more →
  ∃ token length, Lexeme.read c more = .token token length ∧ token ≠ .comment ∧
    ∀ value, token ≠ .text value

/-- What is reported for a whole number that does not fit, as a text of its own. -/
def numberProblem (number : String) : Diagnostic :=
  .single .numberOutOfRange ⟨0, number.utf8ByteSize⟩ Problem.numberOutOfRange.about

/-- Digits take one byte each. -/
theorem byteLength_digits {digits : List Char} (h : ∀ d ∈ digits, d.isDigit = true) :
    byteLength digits = digits.length := by
  induction digits with
  | nil => rfl
  | cons d rest ih =>
    have hd : d.utf8Size = 1 := by
      have hdigit : d.isDigit = true := h d List.mem_cons_self
      rw [Char.utf8Size_eq_one_iff]
      delta Char.isDigit at hdigit
      simp only [Bool.and_eq_true, decide_eq_true_eq, UInt32.le_iff_toNat_le] at hdigit ⊢
      exact Nat.le_trans hdigit.2 (by decide)
    rw [byteLength_cons, hd, ih fun e he => h e (List.mem_cons_of_mem d he), List.length_cons,
      Nat.add_comm]

/-- The problems behind a number out of range are those of the text from its second character on. -/
theorem problemsIn_numberOutOfRange {number behind : List Char} (hn : IsDigits number)
    (hr : Number.maxInt < Number.ofDigits number) (hb : Parted behind) :
    problemsIn (number ++ behind) = numberProblem (String.ofList number) ::
      (problemsIn (behind.drop 1)).map
        (Diagnostic.moved (byteLength number + byteLength (behind.take 1))) := by
  have hrange : Number.inRange? (Number.ofDigits number : Int) = none :=
    Number.inRange?_eq_none_iff.2 fun hin => absurd hin.2 (Int.not_le.2 hr)
  have hread := hb.readNumber hn
  rw [hrange] at hread
  have hsize := byteLength_digits hn.2
  obtain ⟨c, digits, rfl⟩ := List.exists_cons_of_ne_nil hn.1
  rw [List.cons_append, ← read_digit (hn.2 c List.mem_cons_self)] at hread
  have hproblem : numberProblem (String.ofList (c :: digits)) =
      .single .numberOutOfRange ⟨0 + 0, 0 + (c :: digits).length⟩
        Problem.numberOutOfRange.about := by
    rw [numberProblem, utf8ByteSize_ofList, hsize, Nat.zero_add, Nat.zero_add]
  rw [hproblem, problemsIn, List.cons_append, readLexemes, hread]
  dsimp only
  cases behind with
  | nil =>
    rw [readLexemes_beyond (by simp)]
    rfl
  | cons d more =>
    have hskip : (c :: digits).length + 1 - 1 = (digits ++ [d]).length := by simp
    have hcut : digits ++ d :: more = (digits ++ [d]) ++ more := List.append_cons digits d more
    rw [hskip, hcut, readLexemes_skip, readLexemes_rest]
    simp [Nat.add_assoc]

/-- A sign or a blank at the front of a text has no problems, and none come up when it is left out.
-/
theorem problemsIn_plain {behind : List Char} (hb : Parted behind) (hp : BeginsPlainly behind) :
    problemsIn behind =
      (problemsIn (behind.drop 1)).map (Diagnostic.moved (byteLength (behind.take 1))) := by
  cases behind with
  | nil => rfl
  | cons c rest =>
    obtain ⟨token, length, hread, hcomment, htext⟩ := hp c rest rfl
    cases Lexeme.reads_of_read hread with
    | comment => exact absurd rfl hcomment
    | quoted => exact absurd rfl (htext _)
    | number hc =>
      rw [hb.noDigit c rest rfl] at hc
      cases hc
    | word hc =>
      have hword := isWordChar_of_isWordStart hc
      rw [(hb c rest rfl).1] at hword
      cases hword
    | @double sign more hr h =>
      subst hr
      rw [List.drop_one, List.tail_cons, problemsIn_equals, Diagnostic.map_moved_moved]
      exact problemsIn_token ['='] (read_doubleSign h)
    | single hc hd h => exact problemsIn_token [] (read_singleSign hc hd h)
    | blank hc hl =>
      -- the blanks behind the first one are a row of blanks as well
      have hrun : ∀ d ∈ rest.takeWhile isInlineBlank, isInlineBlank d = true :=
        fun d hd => List.all_eq_true.1 List.all_takeWhile d hd
      have hall : ∀ d ∈ c :: rest.takeWhile isInlineBlank, isInlineBlank d = true :=
        List.forall_mem_cons.2 ⟨by simp [isInlineBlank, hc, hl], hrun⟩
      have hend : ∀ d more, rest.dropWhile isInlineBlank = d :: more → isInlineBlank d = false := by
        intro d more heq
        have hhead := List.head?_dropWhile_not isInlineBlank rest
        rw [heq] at hhead
        simpa using hhead
      have hmany := problemsIn_blanks hall hend
      have hfewer := problemsIn_blanks hrun hend
      rw [List.cons_append, List.takeWhile_append_dropWhile] at hmany
      rw [List.takeWhile_append_dropWhile] at hfewer
      rw [hmany, List.drop_one, List.tail_cons, hfewer, Diagnostic.map_moved_moved]
      simp

/-- Behind digits whose value is past the greatest integer, what is reported is the problem of these
digits and the problems of what follows from its second character on, each where it stands. Where
nothing, a sign or a blank follows them, these are all problems of what follows and no others. -/
theorem lexicalProblems_numberOutOfRange {number behind : String} (hn : IsDigits number.toList)
    (hr : Number.maxInt < Number.ofDigits number.toList) (hb : Parted behind.toList) :
    lexicalProblems (number ++ behind) = numberProblem number ::
      (lexicalProblems (String.ofList (behind.toList.drop 1))).map
        (Diagnostic.moved (number.utf8ByteSize + byteLength (behind.toList.take 1))) ∧
    (BeginsPlainly behind.toList → lexicalProblems (number ++ behind) = numberProblem number ::
      (lexicalProblems behind).map (Diagnostic.moved number.utf8ByteSize)) := by
  have hall := problemsIn_numberOutOfRange hn hr hb
  rw [String.ofList_toList, byteLength_toList, ← String.toList_append] at hall
  simp only [lexicalProblems_eq, String.toList_ofList]
  refine ⟨hall, fun hp => ?_⟩
  rw [hall, problemsIn_plain hb hp, Diagnostic.map_moved_moved]

/-- Behind the number stand a blank, a sign and a text that is not closed, which is reported. -/
theorem lexicalProblems_numberOutOfRange_sum :
    IsDigits "99999999999999999999".toList ∧
    Number.maxInt < Number.ofDigits "99999999999999999999".toList ∧
    Parted " + \"a".toList ∧ BeginsPlainly " + \"a".toList ∧
    lexicalProblems ("99999999999999999999" ++ " + \"a") =
      [numberProblem "99999999999999999999",
        .single .unterminatedText ⟨23, 25⟩ Problem.unterminatedText.about] := by
  have hn : IsDigits "99999999999999999999".toList := by decide
  have hr : Number.maxInt < Number.ofDigits "99999999999999999999".toList := by decide
  have hb : Parted " + \"a".toList := parted_cons (c := ' ') (by decide) (by decide)
  have hp : BeginsPlainly " + \"a".toList := by
    intro c more heq
    obtain ⟨rfl, rfl⟩ := List.cons.inj heq
    exact ⟨.blank, 1, by decide, by decide, fun _ htext => by cases htext⟩
  have hbehind : lexicalProblems " + \"a" =
      [.single .unterminatedText ⟨3, 5⟩ Problem.unterminatedText.about] := by decide +kernel
  have hall := (lexicalProblems_numberOutOfRange hn hr hb).2 hp
  rw [hbehind] at hall
  exact ⟨hn, hr, hb, hp, hall⟩

/-- A character that begins no token is not reported when it stands right behind a number out of
range, though it is when it stands alone. -/
theorem lexicalProblems_hidden :
    ¬ ∀ number behind : String, IsDigits number.toList →
      Number.maxInt < Number.ofDigits number.toList → Parted behind.toList →
      lexicalProblems (number ++ behind) = numberProblem number ::
        (lexicalProblems behind).map (Diagnostic.moved number.utf8ByteSize) := by
  intro h
  have hb : Parted "$".toList := parted_cons (c := '$') (by decide) (by decide)
  have hall := h "99999999999999999999" "$" (by decide) (by decide) hb
  have hone : lexicalProblems ("99999999999999999999" ++ "$") =
      [numberProblem "99999999999999999999"] := by decide +kernel
  have hmore : lexicalProblems "$" =
      [.single .unexpectedCharacter ⟨0, 1⟩ Problem.unexpectedCharacter.about] := by decide +kernel
  rw [hone, hmore] at hall
  cases hall

end LandPattern.Script
