import LandPattern.Proofs.Script.Literals
import Mathlib.Data.List.TakeWhile

/-!
# The longest match

A source that is read without problems falls into its tokens: nothing of it is left over, each token
is read from its own characters alone, and no token is the front of a longer one that stands at the
same place.
-/

namespace LandPattern.Script

/-! ## How a token is read -/

/-- The ways a token is read exclude each other. -/
theorem read_eq_token_iff {c : Char} {rest : List Char} {token : Token} {length : Nat} :
    Lexeme.read c rest = .token token length ↔ Lexeme.Reads c rest token length := by
  refine ⟨Lexeme.reads_of_read, fun h => ?_⟩
  cases h with
  | @comment more hc hr =>
    subst hc hr
    rw [read_comment]
    rfl
  | quoted hc h =>
    subst hc
    exact read_quoted h
  | number hc h => rw [read_digit hc, h]
  | word hc => exact read_word hc rest
  | double hr h =>
    subst hr
    exact read_doubleSign h
  | single hc hd h => exact read_singleSign hc hd h
  | blank hc hl => exact read_blank hc hl rest

/-! ## A token and what stands behind it -/

/-- A number that was read is the same number without the text behind it. -/
theorem readNumber_alone {c : Char} {piece rest : List Char} {token : Token}
    (hc : c.isDigit = true)
    (h : readNumber (c :: (piece ++ rest)) = .token token (piece.length + 1)) :
    numberFront (c :: piece) = c :: piece ∧
      readNumber (c :: piece) = .token token (piece.length + 1) := by
  have hfront : numberFront (c :: (piece ++ rest)) = c :: piece :=
    eq_of_prefix_append (numberFront_isPrefix (c :: piece ++ rest)) (readNumber_length h).symm
  have hnumeral := numeral_numberFront hc (piece ++ rest)
  rw [hfront] at hnumeral
  have halone := hnumeral.numberFront_eq
  refine ⟨halone, ?_⟩
  unfold readNumber at h ⊢
  simp only [hfront, halone, List.drop_length] at h ⊢
  split at h
  · exact h
  · split at h
    · cases h
    · rw [if_neg Bool.false_ne_true]
      exact h

namespace Lexeme

variable {c : Char} {piece rest : List Char} {token : Token}

/-- A row of characters of one kind that was read is that row when it stands alone. -/
theorem row_alone {p : Char → Bool}
    (h : piece.length + 1 = ((c :: (piece ++ rest)).takeWhile p).length) :
    (c :: (piece ++ rest)).takeWhile p = c :: piece ∧ (c :: piece).takeWhile p = c :: piece := by
  have hall : (c :: piece ++ rest).takeWhile p = c :: piece :=
    eq_of_prefix_append (List.takeWhile_prefix p) h.symm
  exact ⟨hall, List.takeWhile_eq_self_iff.2 (takeWhile_append_eq_left hall).1⟩

/-- A token is read from its own characters. -/
theorem read_alone (h : Lexeme.read c (piece ++ rest) = .token token (piece.length + 1)) :
    Lexeme.read c piece = .token token (piece.length + 1) := by
  rw [read_eq_token_iff] at h ⊢
  generalize hlength : piece.length + 1 = length at h ⊢
  cases h with
  | @comment more hc hr =>
    obtain ⟨hall, halone⟩ := row_alone hlength
    have hmore : ∃ others, piece = '/' :: others := by
      subst hc
      cases piece with
      | nil =>
        -- at least the two slashes belong to the comment
        rw [hr] at hall
        cases hall
      | cons d others => exact ⟨others, by rw [(List.cons.inj hr).1]⟩
    obtain ⟨others, rfl⟩ := hmore
    rw [restOfLine, hall, ← halone]
    exact .comment hc rfl
  | quoted hc h =>
    obtain ⟨front, others, heq, hn, hsame⟩ := readText_take h
    have hfront : piece = front := List.append_inj_left heq (by omega)
    refine .quoted hc ?_
    rw [hfront, ← List.append_nil front]
    exact hsame []
  | number hc h =>
    subst hlength
    exact .number hc (readNumber_alone hc h).2
  | word hc =>
    obtain ⟨hall, halone⟩ := row_alone hlength
    rw [hall, ← halone]
    exact .word hc
  | double hr h =>
    obtain ⟨d, rfl⟩ : ∃ d, piece = [d] := List.length_eq_one_iff.1 (by omega)
    obtain ⟨rfl, -⟩ := List.cons.inj hr
    exact .double rfl h
  | single hc hd h =>
    obtain rfl : piece = [] := List.length_eq_zero_iff.1 (by omega)
    exact .single (fun hslashes => by cases hslashes.2.choose_spec) rfl h
  | blank hc hl =>
    obtain ⟨hall, halone⟩ := row_alone hlength
    rw [hall, ← halone]
    exact .blank hc hl

/-- A row of characters of one kind is a part of the row that is read where more follows. -/
theorem row_le {p : Char → Bool} (h : piece.length + 1 = ((c :: piece).takeWhile p).length)
    (rest : List Char) : piece.length + 1 ≤ ((c :: (piece ++ rest)).takeWhile p).length := by
  have hrow : (c :: piece).takeWhile p = c :: piece :=
    (List.takeWhile_prefix p).eq_of_length h.symm
  have hall := List.takeWhile_eq_self_iff.1 hrow
  rw [← List.cons_append, List.takeWhile_append_of_pos hall, List.length_append, List.length_cons]
  omega

/-- What is a token alone goes into the token that is read where more follows. -/
theorem length_le_of_read {other : Token} {length : Nat}
    (h : Lexeme.read c piece = .token token (piece.length + 1))
    (ho : Lexeme.read c (piece ++ rest) = .token other length) : piece.length + 1 ≤ length := by
  have hread : ∀ {t : Token} {n : Nat}, Reads c (piece ++ rest) t n → n = length := fun hreads =>
    (Lexeme.token.inj ((read_eq_token_iff.2 hreads).symm.trans ho)).2
  rw [read_eq_token_iff] at h
  generalize hlength : piece.length + 1 = n at h
  cases h with
  | comment hc hr =>
    rw [← hread (.comment hc (by rw [hr]; rfl)), ← hlength]
    exact row_le hlength rest
  | quoted hc h =>
    obtain ⟨front, others, rfl, hn, hsame⟩ := readText_take h
    have hmore := hsame (others ++ rest)
    rw [← List.append_assoc] at hmore
    exact Nat.le_of_eq (hread (.quoted hc hmore))
  | number hc h =>
    subst hlength
    have hnumeral := numeral_numberFront hc piece
    have halone : readNumber (c :: (piece ++ [])) = .token token (piece.length + 1) := by
      rw [List.append_nil]
      exact h
    rw [(readNumber_alone hc halone).1] at hnumeral
    rw [read_digit hc] at ho
    rw [readNumber_length ho]
    exact (hnumeral.isPrefix_numberFront rest).length_le
  | word hc =>
    rw [← hread (.word hc), ← hlength]
    exact row_le hlength rest
  | double hr h => exact Nat.le_of_eq (hread (.double (by rw [hr]; rfl) h))
  | single hc hd h =>
    obtain ⟨others, more, hothers, hn⟩ := read_piece ho
    omega
  | blank hc hl =>
    rw [← hread (.blank hc hl), ← hlength]
    exact row_le hlength rest

end Lexeme

/-! ## The tokens of a source -/

/-- The tokens cover the bytes from one place to another: each takes at least one byte, the first
begins at the one place, every other one where the token before it ends, and the last ends at the
other place. -/
def Tiled (start stop : Nat) : List Placed → Prop
  | [] => start = stop
  | t :: tokens => t.span.start = start ∧ start < t.span.stop ∧ Tiled t.span.stop stop tokens

/-- How a token stands in a source, between what is before it and what is after it. -/
structure Stands (source : String) (t : Placed) (before piece after : String) : Prop where
  /-- The source is cut into three. -/
  source_eq : source = before ++ piece ++ after
  /-- The token begins and ends at the cuts. -/
  span_eq : t.span = ⟨before.utf8ByteSize, (before ++ piece).utf8ByteSize⟩
  /-- The characters of the token alone are this one token. -/
  alone : tokenize piece = .ok [⟨t.token, ⟨0, piece.utf8ByteSize⟩⟩]
  /-- No longer part of the source that begins where the token begins is one token. -/
  longest : ∀ longer rest : String, source = before ++ longer ++ rest →
    piece.utf8ByteSize < longer.utf8ByteSize → ∀ single, tokenize longer ≠ .ok [single]

theorem Lexed.tiled {pos : Nat} {text : List Char} {tokens : List Placed}
    (h : Lexed pos text tokens) : Tiled pos (pos + byteLength text) tokens := by
  induction h with
  | done pos => exact (Nat.add_zero pos).symm
  | @token pos c piece rest token tokens _ _ ih =>
    have hc : 1 ≤ c.utf8Size := c.utf8Size_pos
    have hstop : pos + byteLength (c :: (piece ++ rest)) =
        pos + byteLength (c :: piece) + byteLength rest := by
      simp only [byteLength_cons, byteLength_append]
      omega
    have hsome : pos < pos + byteLength (c :: piece) := by
      rw [byteLength_cons]
      omega
    rw [hstop]
    exact ⟨rfl, hsome, ih⟩

/-- Every token of a row is read at its place. -/
theorem Lexed.read_of_mem {pos : Nat} {text : List Char} {tokens : List Placed}
    (h : Lexed pos text tokens) {t : Placed} (ht : t ∈ tokens) :
    ∃ front c piece rest, text = front ++ c :: (piece ++ rest) ∧
      Lexeme.read c (piece ++ rest) = .token t.token (piece.length + 1) ∧
      t.span = ⟨pos + byteLength front, pos + byteLength front + byteLength (c :: piece)⟩ := by
  induction h with
  | done => exact absurd ht List.not_mem_nil
  | @token pos c piece rest token tokens hread _ ih =>
    rcases List.mem_cons.1 ht with rfl | hlater
    · exact ⟨[], c, piece, rest, rfl, hread, rfl⟩
    · obtain ⟨front, d, other, more, rfl, hd, hspan⟩ := ih hlater
      refine ⟨c :: (piece ++ front), d, other, more, by simp, hd, ?_⟩
      rw [hspan]
      simp only [byteLength_cons, byteLength_append, Nat.add_assoc]

/-- A text is one token when this token is read from it and takes all of it. -/
theorem tokenize_eq_single_iff {text : String} {t : Placed} :
    tokenize text = .ok [t] ↔ ∃ c piece, text.toList = c :: piece ∧
      Lexeme.read c piece = .token t.token (piece.length + 1) ∧
      t.span = ⟨0, text.utf8ByteSize⟩ := by
  rw [tokenize_eq_ok_iff]
  constructor
  · intro h
    generalize htext : text.toList = chars at h
    cases h with
    | @token _ c piece rest token _ hread hrest =>
      cases hrest
      rw [List.append_nil] at hread htext ⊢
      refine ⟨c, piece, rfl, hread, ?_⟩
      rw [← htext, byteLength_toList, Nat.zero_add]
  · rintro ⟨c, piece, htext, hread, hspan⟩
    obtain ⟨token, span⟩ := t
    obtain rfl : span = _ := hspan
    have hlexed : Lexed 0 (c :: (piece ++ [])) _ :=
      .token (by rw [List.append_nil]; exact hread) (.done _)
    rw [List.append_nil, Nat.zero_add, ← htext, byteLength_toList] at hlexed
    exact hlexed

/-- A token stands in its source as the longest one that could be read at its place. -/
theorem stands_of_read {source : String} {t : Placed} {front piece rest : List Char} {c : Char}
    (hs : source.toList = front ++ c :: (piece ++ rest))
    (hr : Lexeme.read c (piece ++ rest) = .token t.token (piece.length + 1))
    (ht : t.span = ⟨byteLength front, byteLength front + byteLength (c :: piece)⟩) :
    Stands source t (String.ofList front) (String.ofList (c :: piece)) (String.ofList rest) where
  source_eq := by
    rw [← String.ofList_append, ← String.ofList_append, List.append_assoc, List.cons_append, ← hs,
      String.ofList_toList]
  span_eq := by
    rw [← String.ofList_append, utf8ByteSize_ofList, utf8ByteSize_ofList, byteLength_append, ht]
  alone := by
    rw [tokenize_eq_single_iff]
    exact ⟨c, piece, String.toList_ofList, Lexeme.read_alone hr, rfl⟩
  longest := by
    intro longer others hsource hmore single hsingle
    obtain ⟨d, wide, hwide, hread, -⟩ := tokenize_eq_single_iff.1 hsingle
    -- both texts begin at the same place
    have hfront : front ++ c :: (piece ++ rest) = front ++ d :: (wide ++ others.toList) := by
      rw [← hs, hsource, String.toList_append, String.toList_append, String.toList_ofList, hwide,
        List.append_assoc, List.cons_append]
    obtain ⟨rfl, hrest⟩ := List.cons.inj (List.append_cancel_left hfront)
    rw [hrest] at hr
    have hlength : wide.length ≤ piece.length :=
      Nat.le_of_succ_le_succ (Lexeme.length_le_of_read hread hr)
    -- the shorter of the two is the front of the other
    have hprefix : wide <+: piece :=
      List.prefix_of_prefix_length_le ⟨_, rfl⟩ ⟨_, hrest⟩ hlength
    obtain ⟨tail, rfl⟩ := hprefix
    rw [utf8ByteSize_ofList, ← byteLength_toList, hwide] at hmore
    simp only [byteLength_cons, byteLength_append] at hmore
    omega

/-- The tokens of a source that is read without problems cover its bytes from the first to the last,
each with at least one, and without a gap between them. Every one begins and ends between two
characters; its characters alone are this one token; and no longer part of the source that begins at
the same place is a single token. -/
theorem tokenize_longest {source : String} {tokens : List Placed}
    (h : tokenize source = .ok tokens) :
    Tiled 0 source.utf8ByteSize tokens ∧
    ∀ t ∈ tokens, (⟨t.span.start⟩ : String.Pos.Raw).IsValid source ∧
      (⟨t.span.stop⟩ : String.Pos.Raw).IsValid source ∧
      ∃ before piece after, Stands source t before piece after := by
  have hlexed := tokenize_eq_ok_iff.1 h
  refine ⟨?_, fun t ht => ?_⟩
  · have htiled := hlexed.tiled
    rw [Nat.zero_add, byteLength_toList] at htiled
    exact htiled
  · obtain ⟨front, c, piece, rest, hs, hr, hspan⟩ := hlexed.read_of_mem ht
    rw [Nat.zero_add] at hspan
    have hstands := stands_of_read hs hr hspan
    refine ⟨?_, ?_, _, _, _, hstands⟩
    · rw [hstands.span_eq, hstands.source_eq, String.append_assoc]
      exact String.Pos.Raw.isValid_iff_exists_append.2 ⟨_, _, rfl, rfl⟩
    · rw [hstands.span_eq, hstands.source_eq]
      exact String.Pos.Raw.isValid_iff_exists_append.2 ⟨_, _, rfl, rfl⟩

/-- The tokens of `a1 <=12`. -/
def comparisonTokens : List Placed :=
  [⟨.name "a1", ⟨0, 2⟩⟩, ⟨.blank, ⟨2, 3⟩⟩, ⟨.lessEquals, ⟨3, 5⟩⟩, ⟨.int 12, ⟨5, 7⟩⟩]

/-- A name with a digit, a sign of two characters and a number of two digits are one token each. -/
theorem tokenize_longest_comparison :
    tokenize "a1 <=12" = .ok comparisonTokens ∧ Tiled 0 7 comparisonTokens ∧
      ∃ before piece after, Stands "a1 <=12" ⟨.lessEquals, ⟨3, 5⟩⟩ before piece after := by
  have hread : readLexemes 0 0 [] [] "a1 <=12".toList = (comparisonTokens, []) := by
    decide +kernel
  have htokens : tokenize "a1 <=12" = .ok comparisonTokens := by
    rw [tokenize, hread]
  obtain ⟨htiled, hall⟩ := tokenize_longest htokens
  exact ⟨htokens, htiled, (hall _ (by decide)).2.2⟩

end LandPattern.Script
