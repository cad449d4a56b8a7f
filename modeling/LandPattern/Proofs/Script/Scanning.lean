import LandPattern.Proofs.Script.Lexemes

/-!
# Tokens lie side by side

What it means that a text is a row of tokens: every token takes the characters that the longest
match gives it, at least one, and the next one begins where it ends. The tokens that are read from a
text without problems are such a row, and there is no other one.
-/

namespace LandPattern.Script

/-- From a byte on, a text is a row of tokens without gaps. -/
inductive Lexed : Nat → List Char → List Placed → Prop where
  | done (pos : Nat) : Lexed pos [] []
  | token {pos : Nat} {c : Char} {piece rest : List Char} {token : Token} {tokens : List Placed}
    (h : Lexeme.read c (piece ++ rest) = .token token (piece.length + 1))
    (ho : Lexed (pos + byteLength (c :: piece)) rest tokens) :
    Lexed pos (c :: (piece ++ rest)) (⟨token, ⟨pos, pos + byteLength (c :: piece)⟩⟩ :: tokens)

/-- What is read between quotes goes up to the closing quote and does not depend on what follows. -/
theorem readText_take {part : TextPart} {done text : List Char} {length size n : Nat}
    {value : String} (h : readText part done length size text = .ok (value, n)) :
    ∃ piece rest, text = piece ++ rest ∧ n = length + piece.length ∧
      ∀ others, readText part done length size (piece ++ others) = .ok (value, n) := by
  induction text generalizing part done length size with
  | nil => cases h
  | cons c rest ih =>
    cases textStep part done length size c with
    | moves _ hread =>
      -- the rest of the piece is what is read behind the character
      rw [hread] at h
      obtain ⟨piece, others, rfl, hn, hsame⟩ := ih h
      refine ⟨c :: piece, others, rfl, ?_, fun others => ?_⟩
      · rw [List.length_cons]
        omega
      · rw [List.cons_append, hread]
        exact hsame others
    | ends _ hread =>
      rw [hread] at h
      cases h
      exact ⟨[c], rest, rfl, rfl, hread⟩
    | stops hread | invalid _ hread =>
      rw [hread] at h
      cases h

theorem fractionFront_isPrefix (text : List Char) : fractionFront text <+: text := by
  unfold fractionFront
  split
  · rename_i more
    dsimp only
    split
    · exact List.nil_prefix
    · exact List.cons_prefix_cons.2 ⟨rfl, List.takeWhile_prefix _⟩
  · exact List.nil_prefix

theorem filter_take_one_isPrefix (p : Char → Bool) (text : List Char) :
    (text.take 1).filter p <+: text := by
  cases text with
  | nil => exact List.nil_prefix
  | cons c rest => cases hc : p c <;> simp [hc]

/-- What is cut off behind one front may have a front of its own. -/
theorem append_isPrefix {front next text : List Char} (h : front <+: text)
    (hn : next <+: text.drop front.length) : front ++ next <+: text := by
  obtain ⟨rest, rfl⟩ := h
  rw [List.drop_left] at hn
  exact (List.prefix_append_right_inj front).2 hn

theorem exponentFront_isPrefix (text : List Char) : exponentFront text <+: text := by
  unfold exponentFront
  split
  · exact List.nil_prefix
  · dsimp only
    split
    · split
      · exact List.nil_prefix
      · exact List.cons_prefix_cons.2
          ⟨rfl, append_isPrefix (filter_take_one_isPrefix _ _) (List.takeWhile_prefix _)⟩
    · exact List.nil_prefix

theorem numberFront_isPrefix (text : List Char) : numberFront text <+: text := by
  refine append_isPrefix (append_isPrefix (List.takeWhile_prefix _) (fractionFront_isPrefix _)) ?_
  rw [List.length_append, ← List.drop_drop]
  exact exponentFront_isPrefix _

/-- A number that is read is the whole front. -/
theorem readNumber_length {text : List Char} {token : Token} {length : Nat}
    (h : readNumber text = .token token length) : length = (numberFront text).length := by
  unfold readNumber at h
  dsimp only at h
  repeat' split at h
  all_goals cases h
  all_goals rfl

/-- A token takes at least its first character, and no more than there is. -/
theorem read_piece {c : Char} {rest : List Char} {token : Token} {length : Nat}
    (h : Lexeme.read c rest = .token token length) :
    ∃ piece others, rest = piece ++ others ∧ length = piece.length + 1 := by
  have hfront : ∀ {front : List Char}, front <+: c :: rest → front ≠ [] →
      ∃ piece others, rest = piece ++ others ∧ front.length = piece.length + 1 := by
    intro front hprefix hne
    obtain ⟨first, piece, rfl⟩ := List.exists_cons_of_ne_nil hne
    obtain ⟨others, heq⟩ := (List.cons_prefix_cons.1 hprefix).2
    exact ⟨piece, others, heq.symm, rfl⟩
  have hrow : ∀ p : Char → Bool, p c = true →
      ∃ piece others, rest = piece ++ others ∧
        ((c :: rest).takeWhile p).length = piece.length + 1 := fun p hp =>
    hfront (List.takeWhile_prefix p) (by simp [hp])
  cases Lexeme.reads_of_read h with
  | comment hc => exact hrow _ (by simp [hc])
  | quoted hc hread =>
    obtain ⟨piece, others, rfl, hn, -⟩ := readText_take hread
    exact ⟨piece, others, rfl, by omega⟩
  | number hc hnumber =>
    rw [readNumber_length hnumber]
    exact hfront (numberFront_isPrefix _) (by simp [numberFront, hc])
  | word hc => exact hrow _ (isWordChar_of_isWordStart hc)
  | double hr => exact ⟨['='], _, hr, rfl⟩
  | single => exact ⟨[], rest, rfl, rfl⟩
  | blank hc hl => exact hrow _ (by simp [isInlineBlank, hc, hl])

/-- The characters that still belong to a token are stepped over. -/
theorem readLexemes_skip (piece rest : List Char) (pos : Nat) (tokens : List Placed)
    (problems : List Diagnostic) :
    readLexemes piece.length pos tokens problems (piece ++ rest) =
      readLexemes 0 (pos + byteLength piece) tokens problems rest := by
  induction piece generalizing pos with
  | nil => rfl
  | cons c piece ih =>
    rw [byteLength_cons, ← Nat.add_assoc, ← ih (pos + c.utf8Size)]
    rfl

/-- A token is set down where it is found, and the reading goes on behind it. -/
theorem readLexemes_token {c : Char} {piece rest : List Char} {token : Token}
    (h : Lexeme.read c (piece ++ rest) = .token token (piece.length + 1)) (pos : Nat)
    (tokens : List Placed) (problems : List Diagnostic) :
    readLexemes 0 pos tokens problems (c :: (piece ++ rest)) =
      readLexemes 0 (pos + byteLength (c :: piece))
        (⟨token, ⟨pos, pos + byteLength (c :: piece)⟩⟩ :: tokens) problems rest := by
  have htake : (c :: (piece ++ rest)).take (piece.length + 1) = c :: piece := by
    rw [List.take_succ_cons, List.take_left]
  rw [readLexemes, h]
  dsimp only
  rw [htake, Nat.add_sub_cancel, readLexemes_skip, byteLength_cons, Nat.add_assoc]

/-- A problem that was found stays. -/
theorem readLexemes_problem {skip pos : Nat} {tokens : List Placed} {problem : Diagnostic}
    {problems : List Diagnostic} {text : List Char} :
    (readLexemes skip pos tokens (problem :: problems) text).2 ≠ [] := by
  induction text generalizing skip pos tokens problem problems with
  | nil => simp [readLexemes]
  | cons c rest ih =>
    cases skip with
    | succ more => exact ih
    | zero =>
      rw [readLexemes]
      split
      · exact ih
      · exact ih

/-- A row of tokens is what is read. -/
theorem Lexed.readLexemes_eq {pos : Nat} {text : List Char} {tokens : List Placed}
    (h : Lexed pos text tokens) (before : List Placed) :
    readLexemes 0 pos before [] text = (before.reverse ++ tokens, []) := by
  induction h generalizing before with
  | done => simp [readLexemes]
  | token hread _ ih => rw [readLexemes_token hread, ih, List.reverse_cons, List.append_assoc]; rfl

/-- What is read without problems is a row of tokens. -/
theorem lexed_of_readLexemes {text : List Char} {pos : Nat} {before found : List Placed}
    (h : readLexemes 0 pos before [] text = (found, [])) :
    ∃ tokens, found = before.reverse ++ tokens ∧ Lexed pos text tokens := by
  induction hsize : text.length using Nat.strongRecOn generalizing text pos before with
  | ind size ih =>
    cases text with
    | nil =>
      cases h
      exact ⟨[], (List.append_nil _).symm, .done pos⟩
    | cons c rest =>
      cases hread : Lexeme.read c rest with
      | broken problem start stop length =>
        rw [readLexemes, hread] at h
        exact absurd (congrArg Prod.snd h) readLexemes_problem
      | token token length =>
        obtain ⟨piece, others, rfl, rfl⟩ := read_piece hread
        rw [readLexemes_token hread] at h
        have hless : others.length < size := by
          rw [← hsize, List.length_cons, List.length_append]
          omega
        obtain ⟨tokens, rfl, hlexed⟩ := ih others.length hless h rfl
        refine ⟨_, ?_, .token hread hlexed⟩
        rw [List.reverse_cons, List.append_assoc]
        rfl

/-- The tokens of a source are the one row that it is. -/
theorem tokenize_eq_ok_iff {source : String} {tokens : List Placed} :
    tokenize source = .ok tokens ↔ Lexed 0 source.toList tokens := by
  unfold tokenize
  constructor
  · intro h
    split at h
    · rename_i found hfound
      cases h
      obtain ⟨_, rfl, hlexed⟩ := lexed_of_readLexemes hfound
      exact hlexed
    · cases h
  · intro h
    rw [h.readLexemes_eq]
    rfl

end LandPattern.Script
