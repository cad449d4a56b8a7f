import LandPattern.Number.Notation

/-!
# Fixed decimal places

A measurement in a summary has three decimal places. The exact value is rounded, and a half goes
to the even neighbour.
-/

namespace LandPattern.Number

/-- The whole number nearest to `num / den`; a half goes to the even neighbour. -/
def roundHalfEven (num den : Nat) : Nat :=
  let low := num / den
  let rest := num % den
  if 2 * rest < den then low
  else if den < 2 * rest then low + 1
  else if low % 2 == 0 then low else low + 1

/-- A double with three decimal places; a value that rounds to zero keeps its sign. -/
def threePlaces (x : Float) : String :=
  match Binary.ofFloat x with
  | .nan => valueText.nan
  | .infinite negative =>
    if negative then valueText.negativeInfinity else valueText.positiveInfinity
  | .finite negative steps =>
    let thousandths := roundHalfEven (steps * 1000) stepsPerOne
    let fraction := (toString (thousandths % 1000)).toList
    (if negative then "-" else "") ++ toString (thousandths / 1000) ++ "." ++
      String.ofList (List.replicate (3 - fraction.length) '0' ++ fraction)

end LandPattern.Number
