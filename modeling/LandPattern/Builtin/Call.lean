import LandPattern.Builtin.Elements
import LandPattern.Builtin.Plain

/-!
# Calling the vocabulary
-/

namespace LandPattern.Builtin

open Act (ofExcept)

/-- The result of a function of the vocabulary. -/
def call (function : Builtin) (args : Arguments) : Metered Value :=
  let made (e : Except Refusal Element) : Metered Value := ofExcept (Value.element <$> e)
  match function with
  | .rect kind => made (makeRect kind args)
  | .line => made (makeLine args)
  | .caption kind => made (makeCaption kind args)
  | .smd => made (makeSmd args)
  | .pad => made (makeDrilled (.pad true) args)
  | .hole => made (makeDrilled .hole args)
  | .model => made (makeModel args)
  | .dual => makeDual args
  | .single => makeSingle args
  | .range => rangeOf args
  | .len => ofExcept (lengthOf args)
  | .abs => ofExcept (absoluteOf args)
  | .min => ofExcept (extremeOf "min" .lt args)
  | .max => ofExcept (extremeOf "max" .gt args)
  | .str => textOf args
  | .int => ofExcept (intOf args)
  | .float => ofExcept (floatOf args)

end LandPattern.Builtin
