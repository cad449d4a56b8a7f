import LandPattern.Builtin.Call

/-!
# Writing within a limit

The literal form of a value is written piece by piece, and the first piece that does not fit ends the
writing. Where the cuts between pieces lie makes no difference: a text is written just when all of it
fits, and what is held on the way is never more than the limit. The text that `str` answers with is
written in this way.
-/

namespace LandPattern

namespace Value

/-- A text with pieces added one after another, if it stays within a number of bytes. -/
def extendAllWithin (limit : Nat) (out : String) (pieces : List String) : Option String :=
  pieces.foldlM (extendWithin limit) out

mutual

/-- The pieces in which the literal form of a value is written. -/
def pieces (v : Value) : List String :=
  match v with
  | .list s => listBrackets.opening :: (itemPieces "" s.items ++ [listBrackets.closing])
  | .tuple s =>
    let brackets := tupleBrackets s.items.length
    brackets.opening :: (itemPieces "" s.items ++ [brackets.closing])
  | other => [other.atom]
termination_by structural v

/-- The pieces in which items are written; `separator` goes before the first of them. -/
def itemPieces (separator : String) (items : List Value) : List String :=
  match items with
  | [] => []
  | v :: rest => separator :: (v.pieces ++ itemPieces ", " rest)
termination_by structural items

end

variable {limit : Nat} {out held : String}

/-! ## Pieces -/

theorem extendAllWithin_cons (limit : Nat) (out piece : String) (rest : List String) :
    extendAllWithin limit out (piece :: rest) =
      (extendWithin limit out piece).bind fun held => extendAllWithin limit held rest :=
  List.foldlM_cons

theorem extendAllWithin_append (limit : Nat) (out : String) (front rest : List String) :
    extendAllWithin limit out (front ++ rest) =
      (extendAllWithin limit out front).bind fun held => extendAllWithin limit held rest :=
  List.foldlM_append

theorem extendAllWithin_single (limit : Nat) (out piece : String) :
    extendAllWithin limit out [piece] = extendWithin limit out piece := by
  rw [extendAllWithin_cons]
  exact Option.bind_fun_some _

/-- What stays within the limit piece by piece is what stays within it as a whole. -/
theorem extendAllWithin_eq (h : out.utf8ByteSize ≤ limit) (pieces : List String) :
    extendAllWithin limit out pieces =
      if out.utf8ByteSize + (String.join pieces).utf8ByteSize ≤ limit
      then some (out ++ String.join pieces) else none := by
  induction pieces generalizing out with
  | nil =>
    rw [String.join_nil, String.utf8ByteSize_empty, Nat.add_zero, if_pos h, String.append_empty]
    rfl
  | cons piece rest ih =>
    have hsize : (String.join (piece :: rest)).utf8ByteSize =
        piece.utf8ByteSize + (String.join rest).utf8ByteSize := by
      rw [String.join_cons, String.utf8ByteSize_append]
    rw [extendAllWithin_cons, extendWithin, hsize]
    split
    · rename_i hfits
      have hheld : (out ++ piece).utf8ByteSize ≤ limit := by rwa [String.utf8ByteSize_append]
      rw [Option.bind_some, ih hheld, String.utf8ByteSize_append, Nat.add_assoc, String.join_cons,
        String.append_assoc]
    · rw [Option.bind_none, if_neg (by omega)]

/-- What is held is all of the pieces that were taken, and within the limit. -/
theorem held_eq_join {pieces : List String} (h : extendAllWithin limit "" pieces = some held) :
    held = String.join pieces ∧ held.utf8ByteSize ≤ limit := by
  rw [extendAllWithin_eq (Nat.zero_le _), String.utf8ByteSize_empty, Nat.zero_add,
    String.empty_append] at h
  split at h
  · cases h
    exact ⟨rfl, ‹_›⟩
  · cases h

/-! ## Literal forms -/

mutual

theorem writeWithin_eq_pieces (limit : Nat) (out : String) (v : Value) :
    writeWithin limit out v = extendAllWithin limit out v.pieces := by
  match v with
  | .list s | .tuple s =>
    simp only [writeWithin, pieces, extendAllWithin_cons limit out, extendAllWithin_append,
      extendAllWithin_single, writeItemsWithin_eq_pieces limit _ _ s.items]
    rfl
  | .nothing | .bool _ | .int _ | .float _ | .text _ | .element _ | .function _ | .builtin _ =>
    exact (extendAllWithin_single limit out _).symm
termination_by structural v

theorem writeItemsWithin_eq_pieces (limit : Nat) (out separator : String) (items : List Value) :
    writeItemsWithin limit out separator items =
      extendAllWithin limit out (itemPieces separator items) := by
  match items with
  | [] => rfl
  | v :: rest =>
    simp only [writeItemsWithin, itemPieces, extendAllWithin_cons, extendAllWithin_append,
      writeWithin_eq_pieces limit _ v, writeItemsWithin_eq_pieces limit _ _ rest]
    rfl
termination_by structural items

end

mutual

theorem join_pieces (v : Value) : String.join v.pieces = v.literal := by
  match v with
  | .list s | .tuple s =>
    simp only [pieces, literal, String.join_cons, String.join_append, String.join_nil,
      String.append_empty, join_itemPieces _ s.items, String.append_assoc]
  | .nothing | .bool _ | .int _ | .float _ | .text _ | .element _ | .function _ | .builtin _ =>
    exact String.empty_append
termination_by structural v

theorem join_itemPieces (separator : String) (items : List Value) :
    String.join (itemPieces separator items) = literals separator items := by
  match items with
  | [] => rfl
  | v :: rest =>
    simp only [itemPieces, literals, String.join_cons, String.join_append, join_pieces v,
      join_itemPieces _ rest, String.append_assoc]
termination_by structural items

end

/-- The literal form is written just when all of it is within the limit. -/
theorem literalWithin_eq (limit : Nat) (v : Value) :
    v.literalWithin limit = if v.literal.utf8ByteSize ≤ limit then some v.literal else none := by
  rw [literalWithin, writeWithin_eq_pieces, extendAllWithin_eq (Nat.zero_le _), join_pieces,
    String.utf8ByteSize_empty, Nat.zero_add, String.empty_append]

theorem literalWithin_eq_some_iff {v : Value} {written : String} :
    v.literalWithin limit = some written ↔
      written = v.literal ∧ v.literal.utf8ByteSize ≤ limit := by
  rw [literalWithin_eq]
  split
  · rename_i hfits
    exact ⟨fun h => ⟨(Option.some.inj h).symm, hfits⟩, fun h => congrArg some h.1.symm⟩
  · rename_i hlong
    exact ⟨fun h => (by cases h), fun h => absurd h.2 hlong⟩

end Value

/-! ## The text of a value -/

/-- The literal form is given when it is within the limit and refused otherwise, and nothing is
charged. -/
theorem Builtin.outcome_literalOf (v : Value) (limits : Limits) (meter : Meter) :
    (literalOf v).outcome limits meter =
      (if v.literal.utf8ByteSize ≤ limits.collection then .ok v.literal
        else .error (Fault.refusal (.textTooLong limits.collection)), meter) := by
  rw [literalOf, Act.outcome_bind_ok _ _ (Act.outcome_read limits meter)]
  dsimp only
  rw [Value.literalWithin_eq]
  by_cases hfits : v.literal.utf8ByteSize ≤ limits.collection
  · rw [if_pos hfits, if_pos hfits]
    rfl
  · rw [if_neg hfits, if_neg hfits]
    rfl

namespace Value

/-- The call that makes a text of a value. -/
def shown (v : Value) : Metered Value := Builtin.str.call ⟨[v], []⟩

theorem shown_eq {v : Value} (hv : ∀ text, v ≠ .text text) :
    v.shown = (do return .text (← Builtin.literalOf v)) := by
  cases v with
  | text s => exact absurd rfl (hv s)
  | nothing | bool | int | float | list | tuple | element | function | builtin => rfl

/-- The text of a value that is no text itself is its literal form, all of it, when this is within the
limit, and is refused otherwise; nothing is charged. The literal form is written in pieces. In
whatever pieces it were written, the answer would be the same, and what is held after any number of
them is what they are together, and within the limit. -/
theorem shown_exact {v : Value} (hv : ∀ text, v ≠ .text text) (limits : Limits) (meter : Meter) :
    v.shown.outcome limits meter =
      (if v.literal.utf8ByteSize ≤ limits.collection then .ok (.text v.literal)
        else .error (Fault.refusal (.textTooLong limits.collection)), meter) ∧
    String.join v.pieces = v.literal ∧
    ∀ chunks : List String, String.join chunks = v.literal →
      v.literalWithin limits.collection = extendAllWithin limits.collection "" chunks ∧
      ∀ taken held, extendAllWithin limits.collection "" (chunks.take taken) = some held →
        held = String.join (chunks.take taken) ∧ held.utf8ByteSize ≤ limits.collection := by
  refine ⟨?_, join_pieces v, fun chunks hchunks => ⟨?_, fun taken held => held_eq_join⟩⟩
  · rw [shown_eq hv, Act.outcome_bind, Builtin.outcome_literalOf]
    by_cases hfits : v.literal.utf8ByteSize ≤ limits.collection
    · rw [if_pos hfits, if_pos hfits]
      rfl
    · rw [if_neg hfits, if_neg hfits]
  · rw [extendAllWithin_eq (Nat.zero_le _), hchunks, literalWithin_eq, String.utf8ByteSize_empty,
      Nat.zero_add, String.empty_append]

/-- A list of twenty bytes, one character of two bytes and one in its escaped form among them, is shown
within a limit of twenty bytes and refused within nineteen. -/
theorem shown_exact_nested :
    let v : Value := .list (Sequence.ofItems
      [.int 7, .tuple (Sequence.ofItems [.text "é\n"] 0), .nothing] 1)
    (∀ text, v ≠ .text text) ∧
      v.shown.outcome { Limits.standard with collection := 20 } Meter.zero =
        (.ok (.text "[7, (\"é\\n\",), none]"), Meter.zero) ∧
      v.shown.outcome { Limits.standard with collection := 19 } Meter.zero =
        (.error (Fault.refusal (.textTooLong 19)), Meter.zero) := by
  intro v
  have hv : ∀ text, v ≠ .text text := by
    intro text h
    unfold v at h
    cases h
  have hliteral : v.literal = "[7, (\"é\\n\",), none]" := by decide +kernel
  obtain ⟨hwithin, -⟩ := shown_exact hv { Limits.standard with collection := 20 } Meter.zero
  obtain ⟨hbeyond, -⟩ := shown_exact hv { Limits.standard with collection := 19 } Meter.zero
  rw [hliteral] at hwithin hbeyond
  rw [if_pos (by decide)] at hwithin
  rw [if_neg (by decide)] at hbeyond
  exact ⟨hv, hwithin, hbeyond⟩

end Value

end LandPattern
