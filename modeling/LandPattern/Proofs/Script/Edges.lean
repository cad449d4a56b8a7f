import LandPattern.Proofs.Script.Recovery

/-!
# Edges of characters

The bytes at which a text can be cut into whole characters. Every token begins and ends at such a
byte. What is reported for a text that cannot be read does too, apart from one kind of problem: of a
character that begins no token only the first byte is marked, however many it takes.
-/

namespace LandPattern.Script

/-- The text can be cut at this byte, and no character is torn. -/
def Edge (text : List Char) (byte : Nat) : Prop :=
  ∃ front back, text = front ++ back ∧ byte = byteLength front

namespace Edge

variable {text front rest : List Char} {byte : Nat}

theorem start (text : List Char) : Edge text 0 := ⟨[], text, rfl, rfl⟩

theorem after (front rest : List Char) : Edge (front ++ rest) (byteLength front) :=
  ⟨front, rest, rfl, rfl⟩

/-- Behind other characters, a text can be cut where it could be cut alone. -/
theorem behind (h : Edge text byte) (front : List Char) :
    Edge (front ++ text) (byteLength front + byte) := by
  obtain ⟨before, back, rfl, rfl⟩ := h
  exact ⟨front ++ before, back, (List.append_assoc ..).symm, (byteLength_append ..).symm⟩

theorem le (h : Edge text byte) : byte ≤ byteLength text := by
  obtain ⟨before, back, rfl, rfl⟩ := h
  rw [byteLength_append]
  exact Nat.le_add_right _ _

/-- Behind the first byte of a character comes the next edge where the character ends. -/
theorem next_le {c : Char} (h : Edge (front ++ c :: rest) byte) (hb : byteLength front < byte) :
    byteLength front + c.utf8Size ≤ byte := by
  obtain ⟨before, back, heq, rfl⟩ := h
  rcases List.append_eq_append_iff.1 heq with ⟨more, rfl, hmore⟩ | ⟨more, rfl, hmore⟩
  · cases more with
    | nil =>
      rw [List.append_nil] at hb
      exact absurd hb (Nat.lt_irrefl _)
    | cons d more =>
      rw [(List.cons.inj hmore).1, byteLength_append, byteLength_cons]
      omega
  · rw [byteLength_append] at hb
    omega

end Edge

theorem edge_iff_isValid {source : String} {byte : Nat} :
    Edge source.toList byte ↔ (⟨byte⟩ : String.Pos.Raw).IsValid source := by
  rw [String.Pos.Raw.isValid_iff_exists_append]
  constructor
  · rintro ⟨front, back, hsource, rfl⟩
    refine ⟨String.ofList front, String.ofList back, ?_, ?_⟩
    · rw [← String.ofList_append, ← hsource, String.ofList_toList]
    · rw [String.rawEndPos, utf8ByteSize_ofList]
  · rintro ⟨front, back, rfl, hbyte⟩
    refine ⟨front.toList, back.toList, String.toList_append, ?_⟩
    rw [byteLength_toList]
    exact congrArg String.Pos.Raw.byteIdx hbyte

/-- A place of whole characters. -/
structure Span.Whole (text : List Char) (s : Span) : Prop where
  /-- No character is torn at its start. -/
  start : Edge text s.start
  /-- No character is torn at its end. -/
  stop : Edge text s.stop
  /-- It ends no earlier than it starts. -/
  ordered : s.start ≤ s.stop

namespace Span.Whole

variable {text : List Char} {s other : Span}

theorem cover (h : s.Whole text) (ho : other.Whole text) : (s.cover other).Whole text where
  start := by
    rcases Nat.le_total s.start other.start with hle | hle
    · rw [Span.cover, Nat.min_eq_left hle]
      exact h.start
    · rw [Span.cover, Nat.min_eq_right hle]
      exact ho.start
  stop := by
    rcases Nat.le_total s.stop other.stop with hle | hle
    · rw [Span.cover, Nat.max_eq_right hle]
      exact ho.stop
    · rw [Span.cover, Nat.max_eq_left hle]
      exact h.stop
  ordered := by
    have hs := h.ordered
    simp only [Span.cover]
    omega

/-- What stands behind other characters is moved by their bytes. -/
theorem behind {start stop : Nat} (h : Span.Whole text ⟨start, stop⟩) (front : List Char) :
    Span.Whole (front ++ text) ⟨byteLength front + start, byteLength front + stop⟩ :=
  ⟨h.start.behind front, h.stop.behind front, Nat.add_le_add_left h.ordered _⟩

end Span.Whole

/-- The places of the tokens of a text are places of whole characters. -/
theorem Lexed.whole {text : List Char} {tokens : List Placed} (h : Lexed 0 text tokens)
    {t : Placed} (ht : t ∈ tokens) : t.span.Whole text := by
  obtain ⟨front, c, piece, rest, rfl, -, hspan⟩ := h.read_of_mem ht
  rw [hspan, Nat.zero_add]
  refine ⟨.after front _, ?_, Nat.le_add_right _ _⟩
  rw [← byteLength_append, ← List.cons_append, ← List.append_assoc]
  exact .after (front ++ c :: piece) rest

/-! ## What cannot be read -/

/-- A problem at the front of a text, in a range of bytes: it marks whole characters, or the first
byte of a character that begins no token. -/
inductive Lexeme.Breaks (text : List Char) : Problem → Nat → Nat → Prop where
  | whole {problem : Problem} {start stop : Nat} (hp : problem ≠ .unexpectedCharacter)
    (h : Span.Whole text ⟨start, stop⟩) : Breaks text problem start stop
  | character : Breaks text .unexpectedCharacter 0 1

/-- What is known of the escape that is being read when so many bytes have been: it began at an edge,
and the backslash and the letter behind it take one byte each. -/
inductive TextPart.Begun (text : List Char) (size : Nat) : TextPart → Prop where
  | plain : Begun text size .plain
  | escape {start : Nat} (he : Edge text start) (hs : start + 1 = size) :
    Begun text size (.escape start)
  | numeric {start : Nat} (he : Edge text start) (hs : start + 2 = size) :
    Begun text size (.numeric start)
  | digits {start : Nat} (found : List Char) (he : Edge text start)
    (hl : Edge text (start + 2)) (hs : start + 2 ≤ size) : Begun text size (.digits start found)

/-- What is reported where the reading of a text between quotes stops. -/
theorem TextPart.Begun.breaks_stopped {part : TextPart} {text : List Char} {size : Nat}
    {problem : Problem} {start stop : Nat} (hp : part.Begun text size) (he : Edge text size)
    (h : readText.stopped part size = (problem, start, stop)) :
    Lexeme.Breaks text problem start stop := by
  cases hp with
  | plain =>
    cases h
    exact .whole (by decide) ⟨.start text, he, Nat.zero_le _⟩
  | escape hfirst hsize =>
    subst hsize
    cases h
    exact .whole (by decide) ⟨hfirst, he, Nat.le_succ _⟩
  | numeric hfirst hsize =>
    subst hsize
    cases h
    exact .whole (by decide) ⟨hfirst, he, Nat.le_add_right _ _⟩
  | digits found hfirst _ hsize =>
    cases h
    exact .whole (by decide) ⟨hfirst, he, Nat.le_trans (Nat.le_add_right _ 2) hsize⟩

/-- What is known of an escape stays known while it is read. -/
theorem TextPart.Begun.move {part next : TextPart} {text done found : List Char} {size : Nat}
    {c : Char} (hp : part.Begun text size) (he : Edge text size)
    (h : TextMove size c done part next found) : next.Begun text (size + c.utf8Size) := by
  cases h with
  | backslash hc =>
    have hsize : c.utf8Size = 1 := by
      rw [hc]
      decide
    exact .escape he (by rw [hsize])
  | numeric hc =>
    have hsize : c.utf8Size = 1 := by
      rw [hc]
      decide
    cases hp with
    | escape hfirst hsecond => exact .numeric hfirst (by rw [← hsecond, hsize])
  | brace =>
    cases hp with
    | numeric hfirst hthird =>
      rw [← hthird] at he
      exact .digits [] hfirst he (by omega)
  | digit =>
    cases hp with
    | digits found hfirst hthird hle => exact .digits _ hfirst hthird (by omega)
  | char | escaped _ | close _ => exact .plain

/-- What is reported for a text between quotes, of which some characters have been read. -/
theorem breaks_of_readText {part : TextPart} {done read text : List Char} {length : Nat}
    {problem : Problem} {start stop : Nat} (hp : part.Begun (read ++ text) (byteLength read))
    (h : readText part done length (byteLength read) text = .error (problem, start, stop)) :
    Lexeme.Breaks (read ++ text) problem start stop := by
  induction text generalizing part done length read with
  | nil =>
    rw [readText] at h
    exact hp.breaks_stopped (.after read []) (Except.error.inj h)
  | cons c rest ih =>
    have hedge : Edge (read ++ c :: rest) (byteLength read) := .after read _
    cases textStep part done length (byteLength read) c with
    | @moves next found hmove hread =>
      -- one more character has been read
      have hsize : byteLength read + c.utf8Size = byteLength (read ++ [c]) := by
        rw [byteLength_append, byteLength_cons, byteLength_nil, Nat.add_zero]
      have hcut : read ++ c :: rest = (read ++ [c]) ++ rest := List.append_cons ..
      have hnext := hp.move hedge hmove
      rw [hread, hsize] at h
      rw [hcut, hsize] at hnext
      rw [hcut]
      exact ih hnext h
    | ends _ hread =>
      rw [hread] at h
      cases h
    | stops hread =>
      rw [hread] at h
      exact hp.breaks_stopped hedge (Except.error.inj h)
    | invalid hdigits hread =>
      subst hdigits
      rw [hread] at h
      cases h
      cases hp with
      | digits found hfirst hthird hle =>
        exact .whole (by decide) ⟨hfirst, hthird, Nat.le_add_right _ _⟩

/-- Numerals are written in characters of one byte. -/
theorem Numeral.byteLength_eq {text : List Char} (h : Numeral text) :
    byteLength text = text.length := by
  obtain ⟨hw, hf, he⟩ := h
  rename_i whole fraction exponent
  have hfraction : byteLength fraction = fraction.length := by
    cases hf with
    | none => rfl
    | point hd =>
      rw [byteLength_cons, byteLength_digits hd.2, List.length_cons, Nat.add_comm]
      rfl
  have hexponent : byteLength exponent = exponent.length := by
    cases he with
    | none => rfl
    | @marked mark sign digits hm hs hd =>
      have hmark : mark.utf8Size = 1 := by
        simp only [Bool.or_eq_true, beq_iff_eq] at hm
        rcases hm with rfl | rfl <;> decide
      have hsign : byteLength sign = sign.length := by
        rcases hs with rfl | ⟨c, hc, rfl⟩
        · rfl
        · simp only [isSign, Bool.or_eq_true, beq_iff_eq] at hc
          rcases hc with rfl | rfl <;> decide
      rw [byteLength_cons, byteLength_append, hmark, hsign, byteLength_digits hd.2,
        List.length_cons, List.length_append, Nat.add_comm]
  rw [byteLength_append, byteLength_append, byteLength_digits hw.2, hfraction, hexponent,
    List.length_append, List.length_append]

/-- What is reported for a number marks the number, or the first digit when a letter follows it. -/
theorem breaks_of_readNumber {c : Char} {rest : List Char} {problem : Problem}
    {start stop length : Nat} (hc : c.isDigit = true)
    (h : readNumber (c :: rest) = .broken problem start stop length) :
    Lexeme.Breaks (c :: rest) problem start stop := by
  have hnumber : Span.Whole (c :: rest) ⟨0, (numberFront (c :: rest)).length⟩ := by
    have hfront : Edge (c :: rest) (numberFront (c :: rest)).length := by
      obtain ⟨others, hothers⟩ := numberFront_isPrefix (c :: rest)
      exact ⟨_, others, hothers.symm, (numeral_numberFront hc rest).byteLength_eq.symm⟩
    exact ⟨.start _, hfront, Nat.zero_le _⟩
  unfold readNumber at h
  dsimp only at h
  repeat' split at h
  all_goals cases h
  all_goals first | exact .character | exact .whole (by decide) hnumber

/-- A text is broken in one of these ways. -/
theorem breaks_of_read {c : Char} {rest : List Char} {problem : Problem} {start stop length : Nat}
    (h : Lexeme.read c rest = .broken problem start stop length) :
    Lexeme.Breaks (c :: rest) problem start stop := by
  unfold Lexeme.read at h
  dsimp only at h
  split at h
  · cases h
  split at h
  · rename_i hquote
    split at h
    · cases h
    · rename_i hread
      cases h
      have hc : byteLength [c] = 1 := by
        rw [beq_iff_eq.1 hquote]
        decide
      rw [← hc] at hread
      have hbreaks : Lexeme.Breaks ([c] ++ rest) problem start stop :=
        breaks_of_readText .plain hread
      exact hbreaks
  split at h
  · exact breaks_of_readNumber ‹_› h
  split at h
  · cases h
  split at h
  · cases h
  split at h
  · cases h
  split at h
  · cases h
  · cases h
    exact .character

/-- What is reported for a text is reported where some part of it cannot be read. -/
theorem broken_of_mem_readLexemes {skip pos : Nat} {tokens : List Placed}
    {problems : List Diagnostic} {text : List Char} {d : Diagnostic}
    (hd : d ∈ (readLexemes skip pos tokens problems text).2) : d ∈ problems ∨
      ∃ front c rest problem start stop length, text = front ++ c :: rest ∧
        Lexeme.read c rest = .broken problem start stop length ∧
        d = .single problem ⟨pos + byteLength front + start, pos + byteLength front + stop⟩
          problem.about := by
  induction text generalizing skip pos tokens problems with
  | nil => exact .inl (List.mem_reverse.1 hd)
  | cons c rest ih =>
    -- what is reported for the rest stands behind the first character
    have hrest : ∀ {skipped : Nat} {found : List Placed} {reported : List Diagnostic},
        d ∈ (readLexemes skipped (pos + c.utf8Size) found reported rest).2 → d ∈ reported ∨
          ∃ front e more problem start stop length, c :: rest = front ++ e :: more ∧
            Lexeme.read e more = .broken problem start stop length ∧
            d = .single problem ⟨pos + byteLength front + start, pos + byteLength front + stop⟩
              problem.about := by
      intro skipped found reported hmem
      rcases ih hmem with hold | ⟨front, e, more, problem, start, stop, length, rfl, hread, rfl⟩
      · exact .inl hold
      · refine .inr ⟨c :: front, e, more, problem, start, stop, length, rfl, hread, ?_⟩
        simp only [byteLength_cons, Nat.add_assoc]
    cases skip with
    | succ more => exact hrest hd
    | zero =>
      rw [readLexemes] at hd
      dsimp only at hd
      split at hd
      · exact hrest hd
      · rename_i problem start stop length hread
        rcases hrest hd with hreported | hlater
        · rcases List.mem_cons.1 hreported with rfl | hold
          · exact .inr ⟨[], c, rest, problem, start, stop, length, rfl, hread, rfl⟩
          · exact .inl hold
        · exact .inr hlater

end LandPattern.Script
