import LandPattern.Json
import LandPattern.Number.Reading
import LandPattern.Script.Lexeme
import Mathlib.Algebra.Order.Field.Rat

/-!
# Reading JSON text

What a text of the JSON data format denotes. A text is cut into tokens, character by character, and
the tokens are put together with the brackets that are still open on a stack. Numbers are exact, so
that none is lost to rounding, and the members of an object are put in the order of their keys, since
their order in a text means nothing.
-/

namespace LandPattern.Json

/-- What a JSON text denotes. -/
inductive Tree where
  | null
  | bool (value : Bool)
  /-- A number with its sign; zero has both signs. -/
  | number (negative : Bool) (size : ℚ)
  | text (value : String)
  | array (items : List Tree)
  /-- The members in the order of their keys. -/
  | object (members : List (String × Tree))

/-- Members in the order of their keys; those that share a key stay as they are. -/
def byKey (members : List (String × Tree)) : List (String × Tree) :=
  members.mergeSort fun a b => a.1 ≤ b.1

/-! ## Numbers -/

/-- The whole part at the front of a number, and what follows it. It begins with a zero only if it is
zero. -/
def wholePart? (text : List Char) : Option (List Char × List Char) :=
  let digits := text.takeWhile Char.isDigit
  if digits.isEmpty || digits.head? == some '0' && digits.length != 1 then none
  else some (digits, text.dropWhile Char.isDigit)

/-- The digits behind a point, and what follows them. -/
def fractionPart? (text : List Char) : Option (List Char × List Char) :=
  match text with
  | '.' :: more =>
    let digits := more.takeWhile Char.isDigit
    if digits.isEmpty then none else some (digits, more.dropWhile Char.isDigit)
  | _ => some ([], text)

/-- The power of ten at the end of a number. -/
def exponentPart? (text : List Char) : Option ℤ :=
  match text with
  | [] => some 0
  | mark :: more => if mark == 'e' || mark == 'E' then Number.readExponent? more else none

/-- The exact number that a text without a sign denotes. -/
def readSize? (text : List Char) : Option ℚ := do
  let (whole, rest) ← wholePart? text
  let (fraction, rest) ← fractionPart? rest
  let exponent ← exponentPart? rest
  some (Number.ofDigits (whole ++ fraction) * 10 ^ (exponent - fraction.length))

/-- What a text denotes that is neither quoted nor a bracket: one of three words, or a number. -/
def readBare? (text : List Char) : Option Tree :=
  if text == "null".toList then some .null
  else if text == "true".toList then some (.bool true)
  else if text == "false".toList then some (.bool false)
  else match text with
    | '-' :: rest => (readSize? rest).map (.number true)
    | rest => (readSize? rest).map (.number false)

/-! ## Tokens -/

/-- The pieces of a JSON text. -/
inductive Token where
  | openArray
  | closeArray
  | openObject
  | closeObject
  | comma
  | colon
  /-- A word, a number or a text. -/
  | leaf (value : Tree)

/-- The sign that a character is. -/
def sign? (c : Char) : Option Token :=
  if c == '[' then some .openArray
  else if c == ']' then some .closeArray
  else if c == '\x7b' then some .openObject
  else if c == '\x7d' then some .closeObject
  else if c == ',' then some .comma
  else if c == ':' then some .colon
  else none

/-- Characters between tokens that mean nothing. -/
def isBlank (c : Char) : Bool := c == ' ' || c == '\t' || c == '\n' || c == '\r'

/-- Characters that words and numbers consist of; any other one ends them. -/
def isBare (c : Char) : Bool := !isBlank c && c != '"' && (sign? c).isNone

/-- The character that a letter behind a backslash stands for. -/
def escaped? (c : Char) : Option Char :=
  if c == '"' || c == '\\' || c == '/' then some c
  else if c == 'b' then some (Char.ofNat 0x8)
  else if c == 'f' then some (Char.ofNat 0xc)
  else if c == 'n' then some '\n'
  else if c == 'r' then some '\r'
  else if c == 't' then some '\t'
  else none

/-- How far the reading of one character of a quoted text has come. -/
inductive Part where
  | plain
  /-- Behind a backslash. -/
  | escape
  /-- Inside the four digits of a code unit, behind the first half of a pair if there was one. -/
  | unit (half : Option ℕ) (digits : List Char)
  /-- Behind the first half of a pair, which the second half has to follow. -/
  | half (unit : ℕ)
  /-- Behind the backslash of the second half. -/
  | halfEscape (unit : ℕ)

/-- What stands around the next character of a text. -/
inductive Position where
  | between
  /-- Inside a word or number, with its characters so far, the last first. -/
  | bare (done : List Char)
  /-- Between quotes, with the characters so far, the last first. -/
  | quoted (part : Part) (done : List Char)

/-- What follows a code unit: the second half of a pair joins the first, and neither half stands
alone. -/
def afterUnit? (half : Option ℕ) (unit : ℕ) (done : List Char) : Option Position :=
  match half with
  | none =>
    if 0xd800 ≤ unit ∧ unit < 0xdc00 then some (.quoted (.half unit) done)
    else if unit.isValidChar then some (.quoted .plain (Char.ofNat unit :: done))
    else none
  | some first =>
    if 0xdc00 ≤ unit ∧ unit < 0xe000 then
      let code := 0x10000 + (first - 0xd800) * 0x400 + (unit - 0xdc00)
      some (.quoted .plain (Char.ofNat code :: done))
    else none

/-- One character between quotes. -/
def stepQuoted (part : Part) (done : List Char) (c : Char) : Option (List Token × Position) :=
  match part with
  | .plain =>
    if c == '"' then some ([.leaf (.text (String.ofList done.reverse))], .between)
    else if c == '\\' then some ([], .quoted .escape done)
    else if c.toNat < 0x20 then none
    else some ([], .quoted .plain (c :: done))
  | .escape =>
    if c == 'u' then some ([], .quoted (.unit none []) done)
    else (escaped? c).map fun e => ([], .quoted .plain (e :: done))
  | .unit half digits =>
    if !Script.isHexDigit c then none
    else if digits.length < 3 then some ([], .quoted (.unit half (c :: digits)) done)
    else
      let unit := (c :: digits).reverse.foldl (fun n d => 16 * n + Script.hexValue d) 0
      (afterUnit? half unit done).map fun position => ([], position)
  | .half unit => if c == '\\' then some ([], .quoted (.halfEscape unit) done) else none
  | .halfEscape unit => if c == 'u' then some ([], .quoted (.unit (some unit) []) done) else none

/-- One character between tokens. -/
def stepBetween (c : Char) : List Token × Position :=
  if isBlank c then ([], .between)
  else if c == '"' then ([], .quoted .plain [])
  else match sign? c with
    | some t => ([t], .between)
    | none => ([], .bare [c])

/-- The tokens that one character completes, and what stands around the next one. -/
def stepChar (position : Position) (c : Char) : Option (List Token × Position) :=
  match position with
  | .between => some (stepBetween c)
  | .bare done =>
    if isBare c then some ([], .bare (c :: done))
    else (readBare? done.reverse).map fun v => (.leaf v :: (stepBetween c).1, (stepBetween c).2)
  | .quoted part done => stepQuoted part done c

/-- The tokens of the rest of a text. -/
def tokens (position : Position) (text : List Char) : Option (List Token) :=
  match text with
  | [] =>
    match position with
    | .between => some []
    | .bare done => (readBare? done.reverse).map fun v => [.leaf v]
    | .quoted _ _ => none
  | c :: rest => do
    let (found, next) ← stepChar position c
    let more ← tokens next rest
    some (found ++ more)

/-! ## Brackets -/

/-- A bracket that is open, with what stands in it so far, the last first. -/
inductive Frame where
  | array (items : List Tree)
  | object (members : List (String × Tree))
  /-- An object of which the value of this key is being read. -/
  | member (members : List (String × Tree)) (key : String)

/-- What stands at a place between tokens, inside of all open brackets. -/
inductive Point where
  /-- A value comes. -/
  | value
  /-- A key comes. -/
  | key
  /-- The colon behind this key comes. -/
  | colon (key : String)
  /-- This value is complete. -/
  | behind (value : Tree)

/-- How far the reading of a text has come. -/
structure Reading where
  point : Point
  /-- The open brackets, the innermost first. -/
  frames : List Frame

/-- One token. A bracket may be closed where it was opened, or behind a value inside it, but not
behind a comma. -/
def step (reading : Reading) (t : Token) : Option Reading :=
  match reading.point, t, reading.frames with
  | .value, .leaf v, frames => some ⟨.behind v, frames⟩
  | .value, .openArray, frames => some ⟨.value, .array [] :: frames⟩
  | .value, .openObject, frames => some ⟨.key, .object [] :: frames⟩
  | .value, .closeArray, .array [] :: frames => some ⟨.behind (.array []), frames⟩
  | .key, .leaf (.text key), frames => some ⟨.colon key, frames⟩
  | .key, .closeObject, .object [] :: frames => some ⟨.behind (.object []), frames⟩
  | .colon key, .colon, .object done :: frames => some ⟨.value, .member done key :: frames⟩
  | .behind v, .comma, .array done :: frames => some ⟨.value, .array (v :: done) :: frames⟩
  | .behind v, .closeArray, .array done :: frames =>
    some ⟨.behind (.array (v :: done).reverse), frames⟩
  | .behind v, .comma, .member done key :: frames =>
    some ⟨.key, .object ((key, v) :: done) :: frames⟩
  | .behind v, .closeObject, .member done key :: frames =>
    some ⟨.behind (.object (byKey ((key, v) :: done).reverse)), frames⟩
  | _, _, _ => none

/-- How far the reading has come behind a text. -/
def run (reading : Reading) (text : List Char) : Option Reading := do
  let found ← tokens .between text
  found.foldlM step reading

/-- The value of a text, where it is the text of one value and nothing else. -/
def read (text : String) : Option Tree := do
  match ← run ⟨.value, []⟩ text.toList with
  | ⟨.behind v, []⟩ => some v
  | _ => none

end LandPattern.Json
