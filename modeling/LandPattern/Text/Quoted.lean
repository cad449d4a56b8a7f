import LandPattern.Text.CodePoints

/-!
# Quoted text

The literal form of a text: double quotes around its characters, with a backslash form for quotes,
backslashes, the usual controls and every hidden character. The form is one a script can read back.
-/

namespace LandPattern.Text

/-- The code point of a character in lower-case hexadecimal between braces, after a backslash and
the letter u. -/
def byNumber (c : Char) : String :=
  "\\u\x7b" ++ String.ofList (Nat.toDigits 16 c.toNat) ++ "\x7d"

/-- The form of one character inside quotes. -/
def quotedChar (c : Char) : String :=
  if c == Char.ofNat 0 then "\\0"
  else if c == '\t' then "\\t"
  else if c == '\r' then "\\r"
  else if c == '\n' then "\\n"
  else if c == Char.ofNat 0x5c then "\\\\"
  else if c == Char.ofNat 0x22 then "\\\""
  else if isHidden c then byNumber c
  else c.toString

/-- The literal form of a text. -/
def quote (text : String) : String :=
  text.toList.foldl (fun out c => out ++ quotedChar c) "\"" ++ "\""

end LandPattern.Text
