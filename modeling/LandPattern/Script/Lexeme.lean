import LandPattern.Number.Reading
import LandPattern.Script.Diagnostic
import LandPattern.Text.Blank

/-!
# Lexemes

What stands at the front of a text: a token and its length, or a problem and how much to step over
before reading goes on. Lengths count characters and offsets count bytes from the front.
-/

namespace LandPattern.Script

/-- What stands at the front of a text. -/
inductive Lexeme where
  /-- A token with the number of its characters. -/
  | token (token : Token) (length : Nat)
  /-- A problem in a range of bytes, with the number of characters to step over. -/
  | broken (problem : Problem) (start stop : Nat) (length : Nat)
  deriving DecidableEq

/-- Letters, digits and the underscore, of ASCII only. -/
def isWordChar (c : Char) : Bool := c.isAlphanum || c == '_'

/-- The characters that may begin a name. -/
def isWordStart (c : Char) : Bool := c.isAlpha || c == '_'

/-- The digits sixteen of a numeric escape, of either case. -/
def isHexDigit (c : Char) : Bool :=
  c.isDigit || ('a' ≤ c && c ≤ 'f') || ('A' ≤ c && c ≤ 'F')

/-- The value of a hexadecimal digit. -/
def hexValue (c : Char) : Nat :=
  if c.isDigit then c.toNat - '0'.toNat
  else if 'a' ≤ c then c.toNat - 'a'.toNat + 10
  else c.toNat - 'A'.toNat + 10

/-- The character that a numeric escape names; surrogates and numbers past the last code point name
none. -/
def charOfHex? (digits : List Char) : Option Char :=
  let n := digits.foldl (fun n c => 16 * n + hexValue c) 0
  if n.isValidChar then some (Char.ofNat n) else none

/-- The character that a one-letter escape stands for. -/
def escaped? (c : Char) : Option Char :=
  if c == 'n' then some '\n'
  else if c == 'r' then some '\r'
  else if c == 't' then some '\t'
  else if c == '0' then some (Char.ofNat 0)
  else if c == Char.ofNat 0x5c || c == Char.ofNat 0x27 || c == Char.ofNat 0x22 then some c
  else none

/-- How far the reading of a text between quotes has come. -/
inductive TextPart where
  /-- Between two characters of the text. -/
  | plain
  /-- After a backslash at this byte. -/
  | escape (start : Nat)
  /-- After the letter that opens a numeric escape. -/
  | numeric (start : Nat)
  /-- Inside the braces of a numeric escape, with the digits so far in reverse. -/
  | digits (start : Nat) (digits : List Char)

/-- A text between quotes, or the problem that ends it: its kind and range of bytes. -/
abbrev TextResult := Except (Problem × Nat × Nat) (String × Nat)

/-- Reads a text from behind its opening quote. The line must hold the closing quote. `done` holds
the characters so far in reverse, `length` and `size` count what was read with the quote. -/
def readText (part : TextPart) (done : List Char) (length size : Nat) : List Char → TextResult
  | [] => .error (stopped part size)
  | c :: rest =>
    let size' := size + c.utf8Size
    match part with
    | .plain =>
      if c == Char.ofNat 0x22 then .ok (String.ofList done.reverse, length + 1)
      else if c == Char.ofNat 0x5c then readText (.escape size) done (length + 1) size' rest
      else if c == '\n' || c == '\r' then .error (stopped part size)
      else readText .plain (c :: done) (length + 1) size' rest
    | .escape start =>
      if c == 'u' then readText (.numeric start) done (length + 1) size' rest
      else match escaped? c with
        | some e => readText .plain (e :: done) (length + 1) size' rest
        | none => .error (stopped part size)
    | .numeric start =>
      if c == Char.ofNat 0x7b then readText (.digits start []) done (length + 1) size' rest
      else .error (stopped part size)
    | .digits start digits =>
      if isHexDigit c && digits.length < 6 then
        readText (.digits start (c :: digits)) done (length + 1) size' rest
      else if c == Char.ofNat 0x7d && !digits.isEmpty then
        match charOfHex? digits.reverse with
        | some e => readText .plain (e :: done) (length + 1) size' rest
        | none => .error (.invalidCodePoint, start, start + 2)
      else .error (stopped part size)
where
  /-- The problem when nothing fits at this byte. -/
  stopped (part : TextPart) (size : Nat) : Problem × Nat × Nat :=
    match part with
    | .plain => (.unterminatedText, 0, size)
    | .escape start => (.invalidEscape, start, start + 1)
    | .numeric start => (.invalidUnicodeEscape, start, size)
    | .digits start _ => (.invalidUnicodeEscape, start, size)

/-- The characters up to the end of the line. -/
def restOfLine (text : List Char) : List Char := text.takeWhile (· != '\n')

/-- A fraction at the front of a text: a point and at least one digit. -/
def fractionFront (text : List Char) : List Char :=
  match text with
  | '.' :: more =>
    let digits := more.takeWhile Char.isDigit
    if digits.isEmpty then [] else '.' :: digits
  | _ => []

/-- An exponent at the front of a text: its mark, an optional sign and at least one digit. -/
def exponentFront (text : List Char) : List Char :=
  match text with
  | [] => []
  | mark :: more =>
    if mark == 'e' || mark == 'E' then
      let sign := (more.take 1).filter fun c => c == '+' || c == '-'
      let digits := (more.drop sign.length).takeWhile Char.isDigit
      if digits.isEmpty then [] else mark :: (sign ++ digits)
    else []

/-- The longest number at the front of a text. -/
def numberFront (text : List Char) : List Char :=
  let whole := text.takeWhile Char.isDigit
  let rest := text.drop whole.length
  let fraction := fractionFront rest
  whole ++ fraction ++ exponentFront (rest.drop fraction.length)

/-- A number that no letter, digit or underscore follows. A whole number out of range is stepped
over together with the character behind it. -/
def readNumber (text : List Char) : Lexeme :=
  let front := numberFront text
  let followed := match text.drop front.length with
    | [] => false
    | c :: _ => isWordChar c
  if followed then .broken .unexpectedCharacter 0 1 1
  else if front.all Char.isDigit then
    match Number.inRange? (Number.ofDigits front : Int) with
    | some value => .token (.int value) front.length
    | none => .broken .numberOutOfRange 0 front.length (front.length + 1)
  else match Number.readDecimal? front with
    | some value => .token (.float value) front.length
    | none => .broken .numberOutOfRange 0 front.length (front.length + 1)

/-- The sign of two characters that a text begins with. -/
def doubleSign? (c : Char) (rest : List Char) : Option Token :=
  match rest with
  | '=' :: _ =>
    if c == '=' then some .equalsEquals
    else if c == '!' then some .bangEquals
    else if c == '<' then some .lessEquals
    else if c == '>' then some .greaterEquals
    else if c == '+' then some .plusEquals
    else if c == '-' then some .minusEquals
    else if c == '*' then some .starEquals
    else if c == '/' then some .slashEquals
    else none
  | _ => none

/-- The sign of one character. -/
def singleSign? (c : Char) : Option Token :=
  if c == '+' then some .plus
  else if c == '-' then some .minus
  else if c == '*' then some .star
  else if c == '/' then some .slash
  else if c == '%' then some .percent
  else if c == '=' then some .equals
  else if c == '<' then some .less
  else if c == '>' then some .greater
  else if c == '(' then some .leftParen
  else if c == ')' then some .rightParen
  else if c == '[' then some .leftBracket
  else if c == ']' then some .rightBracket
  else if c == Char.ofNat 0x7b then some .leftBrace
  else if c == Char.ofNat 0x7d then some .rightBrace
  else if c == ',' then some .comma
  else if c == '.' then some .dot
  else if c == ';' then some .semicolon
  else if c == '\n' then some .newline
  else none

/-- What stands at the front of a text that begins with `c`. A broken text is stepped over to the
end of its line, so that the rest of it is not read as code. -/
def Lexeme.read (c : Char) (rest : List Char) : Lexeme :=
  let text := c :: rest
  if c == '/' && rest.head? == some '/' then .token .comment (restOfLine text).length
  else if c == Char.ofNat 0x22 then
    match readText .plain [] 1 1 rest with
    | .ok (value, length) => .token (.text value) length
    | .error (problem, start, stop) => .broken problem start stop (restOfLine text).length
  else if c.isDigit then readNumber text
  else if isWordStart c then
    let word := text.takeWhile isWordChar
    .token (Token.ofWord (String.ofList word)) word.length
  else match doubleSign? c rest with
    | some sign => .token sign 2
    | none => match singleSign? c with
      | some sign => .token sign 1
      | none =>
        if Text.isBlank c then
          .token .blank (text.takeWhile fun b => Text.isBlank b && b != '\n').length
        else .broken .unexpectedCharacter 0 1 1

/-- Reads lexeme after lexeme. `skip` characters still belong to the last lexeme, and `pos` is the
byte reached; tokens and problems gather in reverse. -/
def readLexemes (skip pos : Nat) (tokens : List Placed) (problems : List Diagnostic) :
    List Char → List Placed × List Diagnostic
  | [] => (tokens.reverse, problems.reverse)
  | c :: rest =>
    let next := pos + c.utf8Size
    match skip with
    | more + 1 => readLexemes more next tokens problems rest
    | 0 =>
      match Lexeme.read c rest with
      | .token token length =>
        let span : Span := ⟨pos, pos + byteLength ((c :: rest).take length)⟩
        readLexemes (length - 1) next (⟨token, span⟩ :: tokens) problems rest
      | .broken problem start stop length =>
        let span : Span := ⟨pos + start, pos + stop⟩
        let diagnostic := Diagnostic.single problem span problem.about
        readLexemes (length - 1) next tokens (diagnostic :: problems) rest

/-- The tokens of a text, or every lexical problem in it. -/
def tokenize (source : String) : Except (List Diagnostic) (List Placed) :=
  match readLexemes 0 0 [] [] source.toList with
  | (tokens, []) => .ok tokens
  | (_, problems) => .error problems

end LandPattern.Script
