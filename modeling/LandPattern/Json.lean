import LandPattern.Number.Notation

/-!
# JSON text

Values of the JSON data format and their two texts, on one line and indented by two blanks. Members
keep their order. A number that is not finite is written `null`.
-/

namespace LandPattern

/-- A JSON value; whole numbers and measurements are kept apart. -/
inductive Json where
  | bool (value : Bool)
  | int (value : Int)
  | float (value : Float)
  | text (value : String)
  | array (items : List Json)
  | object (members : List (String × Json))

namespace Json

/-- One character inside quotes: only quotes, backslashes and controls are escaped. -/
def quotedChar (c : Char) : String :=
  let n := c.toNat
  if n == 0x22 then "\\\""
  else if n == 0x5c then "\\\\"
  else if n == 0x8 then "\\b"
  else if n == 0x9 then "\\t"
  else if n == 0xa then "\\n"
  else if n == 0xc then "\\f"
  else if n == 0xd then "\\r"
  else if n < 0x20 then
    "\\u00" ++ (if n < 0x10 then "0" else "") ++ String.ofList (Nat.toDigits 16 n)
  else c.toString

/-- A text between quotes. -/
def quoted (s : String) : String :=
  s.toList.foldl (fun out c => out ++ quotedChar c) "\"" ++ "\""

/-- The text of a truth value. -/
def ofBool (b : Bool) : String := if b then "true" else "false"

mutual

/-- The text on one line. -/
def compact (j : Json) : String :=
  match j with
  | .bool value => ofBool value
  | .int value => toString value
  | .float value => Number.recordText.write value
  | .text value => quoted value
  | .array items => "[" ++ ",".intercalate (compactItems items) ++ "]"
  | .object members => "\x7b" ++ ",".intercalate (compactMembers members) ++ "\x7d"

/-- The texts of items. -/
def compactItems (items : List Json) : List String :=
  match items with
  | [] => []
  | j :: rest => j.compact :: compactItems rest

/-- The texts of members. -/
def compactMembers (members : List (String × Json)) : List String :=
  match members with
  | [] => []
  | (key, value) :: rest => (quoted key ++ ":" ++ value.compact) :: compactMembers rest

end

/-- Texts between brackets, one to a line and indented one step further than the brackets. -/
def indented (depth : Nat) (opening closing : String) (items : List String) : String :=
  let margin (n : Nat) := "\n" ++ String.ofList (List.replicate (2 * n) ' ')
  if items.isEmpty then opening ++ closing
  else
    opening ++ margin (depth + 1) ++ ("," ++ margin (depth + 1)).intercalate items ++
      margin depth ++ closing

mutual

/-- The text over several lines, with brackets at this depth. -/
def prettyAt (depth : Nat) (j : Json) : String :=
  match j with
  | .bool value => ofBool value
  | .int value => toString value
  | .float value => Number.recordText.write value
  | .text value => quoted value
  | .array items => indented depth "[" "]" (prettyItems (depth + 1) items)
  | .object members => indented depth "\x7b" "\x7d" (prettyMembers (depth + 1) members)

/-- The texts of items. -/
def prettyItems (depth : Nat) (items : List Json) : List String :=
  match items with
  | [] => []
  | j :: rest => j.prettyAt depth :: prettyItems depth rest

/-- The texts of members. -/
def prettyMembers (depth : Nat) (members : List (String × Json)) : List String :=
  match members with
  | [] => []
  | (key, value) :: rest =>
    (quoted key ++ ": " ++ value.prettyAt depth) :: prettyMembers depth rest

end

/-- The text over several lines or on one. -/
def write (pretty : Bool) (j : Json) : String :=
  if pretty then j.prettyAt 0 else j.compact

end Json

end LandPattern
