import LandPattern.Element.Record
import LandPattern.Text.Quoted
import LandPattern.Value.Basic

/-!
# Text of values

The literal form of a value: what a script would write for it, with texts in quotes and a comma
after the item of a tuple of one. Elements are shown by their records. Writing can be held to a
number of bytes, and then stops at the first piece that does not fit.
-/

namespace LandPattern.Value

/-- The pieces before, between and after the items of a sequence. -/
structure Brackets where
  /-- Before the first item. -/
  opening : String
  /-- After the last item. -/
  closing : String

/-- The brackets of a list. -/
def listBrackets : Brackets := ⟨"[", "]"⟩

/-- The brackets of a tuple; a single item is followed by a comma. -/
def tupleBrackets (length : Nat) : Brackets := ⟨"(", if length = 1 then ",)" else ")"⟩

/-- The literal form of a value without items. -/
def atom : Value → String
  | .nothing => "none"
  | .bool b => if b then "true" else "false"
  | .int n => toString n
  | .float x => Number.valueText.write x
  | .text s => Text.quote s
  | .element e => e.text
  | .function name => s!"<fn {name}>"
  | .builtin b => s!"<builtin {b.name}>"
  | .list _ | .tuple _ => ""

mutual

/-- The literal form of a value. -/
def literal (v : Value) : String :=
  match v with
  | .list s => listBrackets.opening ++ literals "" s.items ++ listBrackets.closing
  | .tuple s =>
    let brackets := tupleBrackets s.items.length
    brackets.opening ++ literals "" s.items ++ brackets.closing
  | other => other.atom
termination_by structural v

/-- The literal forms of items; `separator` goes before the first of them. -/
def literals (separator : String) (items : List Value) : String :=
  match items with
  | [] => ""
  | v :: rest => separator ++ v.literal ++ literals ", " rest
termination_by structural items

end

/-- A text with a piece added, if it stays within a number of bytes. -/
def extendWithin (limit : Nat) (out piece : String) : Option String :=
  if out.utf8ByteSize + piece.utf8ByteSize ≤ limit then some (out ++ piece) else none

mutual

/-- A text with the literal form of a value added, if it stays within a number of bytes. -/
def writeWithin (limit : Nat) (out : String) (v : Value) : Option String :=
  match v with
  | .list s => do
    let opened ← extendWithin limit out listBrackets.opening
    let written ← writeItemsWithin limit opened "" s.items
    extendWithin limit written listBrackets.closing
  | .tuple s => do
    let brackets := tupleBrackets s.items.length
    let opened ← extendWithin limit out brackets.opening
    let written ← writeItemsWithin limit opened "" s.items
    extendWithin limit written brackets.closing
  | other => extendWithin limit out other.atom
termination_by structural v

/-- A text with the literal forms of items added, if it stays within a number of bytes. -/
def writeItemsWithin (limit : Nat) (out separator : String) (items : List Value) :
    Option String :=
  match items with
  | [] => some out
  | v :: rest => do
    let separated ← extendWithin limit out separator
    let written ← writeWithin limit separated v
    writeItemsWithin limit written ", " rest
termination_by structural items

end

/-- The literal form of a value, if it has at most this many bytes. -/
def literalWithin (limit : Nat) (v : Value) : Option String := writeWithin limit "" v

/-- A value in a few words: its type, and what it is if that is short. -/
def describe (v : Value) : String :=
  match v with
  | .bool _ | .int _ | .float _ | .text _ => s!"{v.type} `{v.literal}`"
  | .list s | .tuple s => s!"{v.type} of length {s.items.length}"
  | other => other.type

end LandPattern.Value
