import LandPattern.Number.Shortest

/-!
# Written numbers

A double is written with its shortest digits. Two written forms are in use. Value text is how a
script sees a float, and record text is how a float stands in the JSON records; they differ in the
exponents written positionally, in the mark of a positive exponent, and in what a tie does.
-/

namespace LandPattern.Number

/-- The decisions of one written form. -/
structure Style where
  /-- Exponents from here on are written positionally, up to the next field. -/
  plainFrom : Int
  /-- The last exponent that is written positionally. -/
  plainTo : Int
  /-- What stands between the exponent mark and a positive exponent. -/
  plus : String
  /-- What is done when two shortest decimals are equally near. -/
  tie : Tie
  /-- The text of what is no number. -/
  nan : String
  /-- The text of the positive infinity. -/
  positiveInfinity : String
  /-- The text of the negative infinity. -/
  negativeInfinity : String

/-- Value text: `0.0001`, `1e-5`, `1e16`, `inf`. -/
def valueText : Style := ⟨-4, 15, "", .up, "NaN", "inf", "-inf"⟩

/-- Record text: `0.00001`, `1e-6`, `1e+16`; what is not finite is written `null`. -/
def recordText : Style := ⟨-5, 15, "+", .even, "null", "null", "null"⟩

/-- The text of a decimal whose first digit has this power of ten. -/
def Style.decimal (style : Style) (d : Decimal) : String :=
  let digits := (toString d.digits).toList
  let leading := d.exponent + digits.length - 1
  let text : List Char :=
    if style.plainFrom ≤ leading && leading ≤ style.plainTo then
      if leading < 0 then
        '0' :: '.' :: (List.replicate (-leading - 1).toNat '0' ++ digits)
      else
        let places := leading.toNat + 1
        let whole := digits.take places
        let fraction := digits.drop places
        whole ++ List.replicate (places - whole.length) '0' ++
          '.' :: (if fraction.isEmpty then ['0'] else fraction)
    else
      let fraction := digits.drop 1
      let mark := if leading < 0 then "" else style.plus
      digits.take 1 ++ (if fraction.isEmpty then [] else '.' :: fraction) ++
        'e' :: (mark ++ toString leading).toList
  String.ofList text

/-- The text of a double. -/
def Style.write (style : Style) (x : Float) : String :=
  match Binary.ofFloat x with
  | .nan => style.nan
  | .infinite negative => if negative then style.negativeInfinity else style.positiveInfinity
  | .finite negative steps =>
    let sign := if negative then "-" else ""
    if steps = 0 then sign ++ "0.0" else sign ++ style.decimal (shortest style.tie steps)

end LandPattern.Number
