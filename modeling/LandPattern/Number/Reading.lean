import LandPattern.Number.Binary
import LandPattern.Number.Integer

/-!
# Read numbers

A decimal text denotes the double nearest to its exact value. Digits may stand on one side of the
point only, an exponent may follow, and the words for infinity and for no number are read without
regard to case.
-/

namespace LandPattern.Number

/-- The double nearest to `digits · 10 ^ exponent`. Values beyond the range are settled by their
size, so that a long exponent costs nothing. -/
def nearest (digits : Nat) (exponent : Int) : Float :=
  if digits = 0 then ofSteps false 0
  else
    let size := (digits.log2 : Int) * 30103 / 100000 + exponent
    if 400 < size then infinity false
    else if size < -400 then ofSteps false 0
    else if exponent < 0 then Float.ofScientific digits true (-exponent).toNat
    else Float.ofScientific digits false exponent.toNat

/-- The power of ten after an exponent mark: an optional sign and at least one digit. -/
def readExponent? (text : List Char) : Option Int :=
  match text with
  | '-' :: digits => unsigned digits (-1)
  | '+' :: digits => unsigned digits 1
  | digits => unsigned digits 1
where
  unsigned (digits : List Char) (sign : Int) : Option Int :=
    if digits.isEmpty || !digits.all Char.isDigit then none
    else some (sign * (ofDigits digits : Int))

/-- An unsigned decimal: digits with an optional point, at least one digit in all, and an optional
exponent. -/
def readDecimal? (text : List Char) : Option Float :=
  let whole := text.takeWhile Char.isDigit
  let afterWhole := text.dropWhile Char.isDigit
  let (fraction, rest) := match afterWhole with
    | '.' :: more => (more.takeWhile Char.isDigit, more.dropWhile Char.isDigit)
    | more => ([], more)
  let digits := whole ++ fraction
  if digits.isEmpty then none
  else match rest with
    | [] => some (nearest (ofDigits digits) (-fraction.length))
    | mark :: more =>
      if mark == 'e' || mark == 'E' then
        (readExponent? more).map fun e => nearest (ofDigits digits) (e - fraction.length)
      else none

/-- A decimal or a word, without its sign. -/
def readUnsigned? (text : List Char) : Option Float :=
  let word := String.ofList (text.map Char.toLower)
  if word == "inf" || word == "infinity" then some (infinity false)
  else if word == "nan" then some notANumber
  else readDecimal? text

/-- A double with an optional sign; nothing may precede or follow it. -/
def readFloat? (text : List Char) : Option Float :=
  match text with
  | '-' :: rest => (readUnsigned? rest).map (fun x => -x)
  | '+' :: rest => readUnsigned? rest
  | rest => readUnsigned? rest

end LandPattern.Number
