import LandPattern.Number.Reading
import LandPattern.Toml.Basic
import LandPattern.Toml.Text

/-!
# Scalars

Truth values, numbers and moments are words. Underscores may stand between digits, and integers may
be written in four bases. A number that is too large to be held is a number all the same.
-/

namespace LandPattern.Toml

-- Powers are those of the core library, whatever else stands before this in a file.
attribute [local instance] Number.corePow

/-- Digits without the underscores between them. -/
def ungrouped? (isDigit : Char → Bool) (text : List Char) : Option (List Char) :=
  match text with
  | [] => none
  | [c] => if isDigit c then some [c] else none
  | c :: '_' :: rest => if isDigit c then (c :: ·) <$> ungrouped? isDigit rest else none
  | c :: rest => if isDigit c then (c :: ·) <$> ungrouped? isDigit rest else none

/-- The number that digits denote in a base. -/
def inBase? (base : Nat) (text : List Char) : Option Nat := do
  let digits ← ungrouped? (fun c => (hexDigit? c).any (· < base)) text
  return digits.foldl (fun n c => base * n + (hexDigit? c).getD 0) 0

/-- The digits of a decimal number without needless zeros in front. -/
def decimalDigits? (text : List Char) : Option (List Char) := do
  let digits ← ungrouped? Char.isDigit text
  match digits with
  | '0' :: _ :: _ => none
  | _ => return digits

/-- The sign of a number, as a factor, and what follows it. -/
def signed (text : List Char) : Int × List Char :=
  match text with
  | '-' :: rest => (-1, rest)
  | '+' :: rest => (1, rest)
  | rest => (1, rest)

/-- The integers that a document can hold. -/
def holdable (n : Int) : Bool := -(2 ^ (127 : Nat)) ≤ n && n < 2 ^ (128 : Nat)

/-- The integer that a text writes. -/
def readInteger? (text : List Char) : Option Int :=
  match text with
  | '0' :: 'x' :: digits => Int.ofNat <$> inBase? 16 digits
  | '0' :: 'o' :: digits => Int.ofNat <$> inBase? 8 digits
  | '0' :: 'b' :: digits => Int.ofNat <$> inBase? 2 digits
  | _ =>
    let (sign, digits) := signed text
    (fun ds => sign * Int.ofNat (Number.ofDigits ds)) <$> decimalDigits? digits

/-- An integer. -/
def integer? (text : List Char) : Option Node :=
  (readInteger? text).map fun n => if holdable n then .int n else .excess

/-- The decimal text of a float without underscores, in the form that all floats are read from. -/
def floatText? (text : List Char) : Option (List Char) := do
  let isMark (c : Char) : Bool := c == 'e' || c == 'E'
  let mantissa := text.takeWhile fun c => !isMark c
  let exponent := text.dropWhile fun c => !isMark c
  let whole := mantissa.takeWhile (· != '.')
  let fraction := mantissa.dropWhile (· != '.')
  let wholeDigits ← decimalDigits? whole
  let fractionDigits ← match fraction with
    | [] => some []
    | _ :: digits => ('.' :: ·) <$> ungrouped? Char.isDigit digits
  let exponentDigits ← match exponent with
    | [] => some []
    | _ :: '-' :: digits => (fun ds => 'e' :: '-' :: ds) <$> ungrouped? Char.isDigit digits
    | _ :: '+' :: digits => ('e' :: ·) <$> ungrouped? Char.isDigit digits
    | _ :: digits => ('e' :: ·) <$> ungrouped? Char.isDigit digits
  if fraction.isEmpty && exponent.isEmpty then none
  else return wholeDigits ++ fractionDigits ++ exponentDigits

/-- A float, which is infinite only if it is written so. -/
def float? (text : List Char) : Option Node := do
  let (sign, rest) := signed text
  if rest = ['i', 'n', 'f'] then return .float (Number.infinity (sign < 0))
  else if rest = ['n', 'a', 'n'] then return .float Number.notANumber
  else
    let size ← Number.readDecimal? (← floatText? rest)
    return if size.isInf then .excess else .float (if sign < 0 then -size else size)

/-- A number of exactly two digits between bounds, and what follows it. -/
def twoDigits? (least greatest : Nat) (text : List Char) : Option (Nat × List Char) :=
  match text with
  | a :: b :: rest =>
    let n := Number.ofDigits [a, b]
    if a.isDigit && b.isDigit && decide (least ≤ n ∧ n ≤ greatest) then some (n, rest) else none
  | _ => none

/-- What follows one particular character. -/
def after? (c : Char) (text : List Char) : Option (List Char) :=
  match text with
  | d :: rest => if d == c then some rest else none
  | [] => none

/-- How many days a month has. -/
def daysIn (year month : Nat) : Nat :=
  if month = 2 then
    if year % 4 = 0 ∧ (year % 100 ≠ 0 ∨ year % 400 = 0) then 29 else 28
  else if month = 4 ∨ month = 6 ∨ month = 9 ∨ month = 11 then 30
  else 31

/-- What follows a date. -/
def afterDate? (text : List Char) : Option (List Char) := do
  let year := text.take 4
  if year.length ≠ 4 ∨ !year.all Char.isDigit then none
  else
    let rest ← after? '-' (text.drop 4)
    let (month, rest) ← twoDigits? 1 12 rest
    let rest ← after? '-' rest
    let (_, rest) ← twoDigits? 1 (daysIn (Number.ofDigits year) month) rest
    return rest

/-- What follows a time of day. -/
def afterTime? (text : List Char) : Option (List Char) := do
  let (_, rest) ← twoDigits? 0 23 text
  let rest ← after? ':' rest
  let (_, rest) ← twoDigits? 0 59 rest
  match rest with
  | ':' :: rest => do
    let (_, rest) ← twoDigits? 0 60 rest
    match rest with
    | '.' :: rest =>
      if (rest.takeWhile Char.isDigit).isEmpty then none
      else return rest.dropWhile Char.isDigit
    | _ => return rest
  | _ => return rest

/-- What follows the distance from universal time. -/
def afterOffset? (text : List Char) : Option (List Char) :=
  match text with
  | [] => some []
  | sign :: rest =>
    if sign == 'Z' || sign == 'z' then some rest
    else if sign == '+' || sign == '-' then do
      let (_, rest) ← twoDigits? 0 23 rest
      let rest ← after? ':' rest
      let (_, rest) ← twoDigits? 0 59 rest
      return rest
    else none

/-- Whether a word is a moment: a date, a time of day, or both, and then perhaps an offset. -/
def isMoment (text : List Char) : Bool :=
  match afterDate? text with
  | some [] => true
  | some (mark :: rest) =>
    (mark == 'T' || mark == 't' || mark == ' ') &&
      ((afterTime? rest).bind afterOffset?) == some []
  | none => afterTime? text == some []

/-- The scalar that a word writes. -/
def scalar? (word : List Char) : Option Node :=
  if word = "true".toList then some (.bool true)
  else if word = "false".toList then some (.bool false)
  else if isMoment word then some (.moment (String.ofList word))
  else (integer? word).or (float? word)

/-- Characters of scalars. -/
def isWord (c : Char) : Bool :=
  c.isAlphanum || c == '+' || c == '-' || c == '_' || c == '.' || c == ':'

/-- A scalar; a single blank may stand between a date and a time. -/
def scalar : Reader Node := do
  let word ← Reader.takeWhile isWord
  let word ← match ← get with
    | ' ' :: c :: rest =>
      if afterDate? word == some [] && c.isDigit then do
        set (c :: rest)
        pure (word ++ ' ' :: (← Reader.takeWhile isWord))
      else pure word
    | _ => pure word
  match scalar? word with
  | some node => return node
  | none => Reader.fail

end LandPattern.Toml
