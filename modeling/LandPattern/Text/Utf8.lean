/-!
# Texts from bytes

Bytes are a text when they are a row of UTF-8 forms. A byte that cannot stand where it stands, and
an end inside a form, are told by where the form begins and how much of it was good.
-/

namespace LandPattern.Text

/-- Why bytes are not a text. -/
inductive BadEncoding where
  /-- Some bytes from an index on are no beginning of a form. -/
  | invalid (length index : Nat)
  /-- The bytes end inside a form that begins at an index. -/
  | incomplete (index : Nat)
  deriving DecidableEq, Repr

/-- The bad encoding in words. -/
def BadEncoding.words : BadEncoding → String
  | .invalid length index => s!"invalid utf-8 sequence of {length} bytes from index {index}"
  | .incomplete index => s!"incomplete utf-8 byte sequence from index {index}"

/-- A form that is not complete. -/
structure OpenForm where
  /-- The bits read so far. -/
  bits : Nat
  /-- How many bytes are still owed. -/
  owed : Nat
  /-- The least byte that may follow. -/
  least : Nat
  /-- The greatest byte that may follow. -/
  greatest : Nat
  /-- Where the form begins. -/
  start : Nat

/-- The form that a first byte opens at an index; a form of one byte owes nothing. -/
def OpenForm.begin? (byte index : Nat) : Option OpenForm :=
  if byte ≤ 0x7f then some ⟨byte, 0, 0x80, 0xbf, index⟩
  else if byte < 0xc2 then none
  else if byte ≤ 0xdf then some ⟨byte % 0x20, 1, 0x80, 0xbf, index⟩
  else if byte ≤ 0xef then
    some ⟨byte % 0x10, 2, if byte = 0xe0 then 0xa0 else 0x80, if byte = 0xed then 0x9f else 0xbf,
      index⟩
  else if byte ≤ 0xf4 then
    some ⟨byte % 0x8, 3, if byte = 0xf0 then 0x90 else 0x80, if byte = 0xf4 then 0x8f else 0xbf,
      index⟩
  else none

/-- The characters of the bytes from an index on, after those found so far in reverse; `form` is
the form that is open there. -/
def decodeFrom (bytes : List UInt8) (index : Nat) (form : Option OpenForm) (found : List Char) :
    Except BadEncoding (List Char) :=
  match bytes, form with
  | [], none => .ok found.reverse
  | [], some form => .error (.incomplete form.start)
  | byte :: rest, none =>
    match OpenForm.begin? byte.toNat index with
    | none => .error (.invalid 1 index)
    | some form =>
      if form.owed = 0 then decodeFrom rest (index + 1) none (Char.ofNat form.bits :: found)
      else decodeFrom rest (index + 1) (some form) found
  | byte :: rest, some form =>
    if form.least ≤ byte.toNat ∧ byte.toNat ≤ form.greatest then
      let bits := form.bits * 0x40 + byte.toNat % 0x40
      if form.owed = 1 then decodeFrom rest (index + 1) none (Char.ofNat bits :: found)
      else decodeFrom rest (index + 1) (some ⟨bits, form.owed - 1, 0x80, 0xbf, form.start⟩) found
    else .error (.invalid (index - form.start) form.start)

/-- The text that bytes write. -/
def ofBytes (bytes : List UInt8) : Except BadEncoding String :=
  String.ofList <$> decodeFrom bytes 0 none []

end LandPattern.Text
