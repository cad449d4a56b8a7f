import LandPattern.Toml.Reader

/-!
# Texts and keys

Texts stand between double quotes, with escapes, or between single quotes, without; either quote may
be tripled, and then the text may go over several lines. Keys are bare words or texts on one line,
and dots join them.
-/

namespace LandPattern.Toml

/-- The double quote. -/
def doubleQuote : Char := Char.ofNat 0x22

/-- The single quote. -/
def singleQuote : Char := Char.ofNat 0x27

/-- The character that opens an escape. -/
def backslash : Char := Char.ofNat 0x5c

/-- The value of a hexadecimal digit. -/
def hexDigit? (c : Char) : Option Nat :=
  if c.isDigit then some (c.toNat - '0'.toNat)
  else if 'a' ≤ c ∧ c ≤ 'f' then some (c.toNat - 'a'.toNat + 10)
  else if 'A' ≤ c ∧ c ≤ 'F' then some (c.toNat - 'A'.toNat + 10)
  else none

/-- What is open inside a text. -/
inductive Inside where
  | plain
  /-- Blanks and ends of lines are left out. -/
  | skipping
  /-- Hexadecimal digits that are still owed, and the value of those read. -/
  | number (owed value : Nat)

/-- What a text is written between. -/
structure Quotes where
  /-- The quote. -/
  quote : Char
  /-- Whether backslashes open escapes. -/
  escapes : Bool
  /-- Whether the quote is tripled. -/
  tripled : Bool

/-- What an escape of one letter stands for. -/
def shortEscape? (c : Char) : Option Char :=
  if c == 'b' then some (Char.ofNat 0x8)
  else if c == 't' then some '\t'
  else if c == 'n' then some '\n'
  else if c == 'f' then some (Char.ofNat 0xc)
  else if c == 'r' then some '\r'
  else if c == 'e' then some (Char.ofNat 0x1b)
  else if c == doubleQuote || c == backslash then some c
  else none

/-- How many hexadecimal digits follow an escape letter. -/
def numberEscape? (c : Char) : Option Nat :=
  if c == 'x' then some 2 else if c == 'u' then some 4 else if c == 'U' then some 8 else none

/-- The character with a number, unless none has it. -/
def character? (n : Nat) : Option Char :=
  if n < 0xd800 ∨ (0xdfff < n ∧ n < 0x110000) then some (Char.ofNat n) else none

/-- The text up to its closing quotes, after what was found of it in reverse, and what follows. Of a
row of tripled quotes the last three close, and at most two stand before them. -/
def textBody (q : Quotes) (inside : Inside) (text : List Char) (found : List Char) :
    Option (List Char × List Char) :=
  match inside, text with
  | _, [] => none
  | .number owed value, c :: rest => do
    let digit ← hexDigit? c
    let next := 16 * value + digit
    if owed = 1 then
      let c ← character? next
      textBody q .plain rest (c :: found)
    else textBody q (.number (owed - 1) next) rest found
  | state, c :: rest =>
    let skipped := match state with
      | .skipping => isBlank c || isLineSign c
      | _ => false
    if skipped then
      if c == '\r' && rest.head? != some '\n' then none
      else textBody q .skipping rest found
    else if c == q.quote then
      if !q.tripled then some (found.reverse, rest)
      else match rest with
        | d :: e :: more =>
          if d == c && e == c then
            let extra := (more.takeWhile (· == c)).take 2
            some (found.reverse ++ extra, more.drop extra.length)
          else textBody q .plain (d :: e :: more) (c :: found)
        | [_] | [] => none
    else if q.escapes && c == backslash then
      match rest with
      | [] => none
      | d :: more =>
        match shortEscape? d, numberEscape? d with
        | some escaped, _ => textBody q .plain more (escaped :: found)
        | none, some owed => textBody q (.number owed 0) more found
        | none, none =>
          let line := (d :: more).dropWhile isBlank
          if q.tripled && (line.head?.any isLineSign) then textBody q .skipping (d :: more) found
          else none
    else if isLineSign c then
      if !q.tripled || (c == '\r' && rest.head? != some '\n') then none
      else textBody q .plain rest (c :: found)
    else if isControl c then none
    else textBody q .plain rest (c :: found)

/-- A text; the end of a line right after tripled quotes is left out. -/
def quotedText (tripledAllowed : Bool) : Reader String := do
  let quote ← Reader.next
  let escapes := quote == doubleQuote
  let tripled := tripledAllowed && (← Reader.follows [quote, quote])
  if tripled then
    let _ ← Reader.take 2
    if (← Reader.peek?).any isLineSign then lineEnd
  match textBody ⟨quote, escapes, tripled⟩ .plain (← get) [] with
  | none => Reader.fail
  | some (body, rest) =>
    set rest
    return String.ofList body

/-- Characters of bare keys. -/
def isBare (c : Char) : Bool := c.isAlphanum || c == '-' || c == '_'

/-- One part of a key. -/
def keyPart : Reader String := do
  match ← Reader.peek? with
  | none => Reader.fail
  | some c =>
    if c == doubleQuote || c == singleQuote then quotedText false
    else
      let word ← Reader.takeWhile isBare
      if word.isEmpty then Reader.fail else return String.ofList word

/-- The parts of a dotted key that has at most this many dots, with blanks around the parts. -/
def parts (dots : Nat) : Reader (List String) := do
  blanks
  let part ← keyPart
  blanks
  if ← Reader.accept '.' then
    match dots with
    | 0 => Reader.fail
    | fewer + 1 => return part :: (← parts fewer)
  else return [part]

/-- How many parts a key may have. -/
def longestKey : Nat := 80

/-- The parts of a key. -/
def key : Reader (List String) := parts (longestKey - 1)

end LandPattern.Toml
