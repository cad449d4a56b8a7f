import LandPattern.Script.Token

/-!
# Diagnostics

A script that cannot be run is answered with the problems found in it. Each has a code, a message,
labelled places and sometimes a hint; all wording is derived from the problem itself.
-/

namespace LandPattern.Script

/-- What a script reader waits for. -/
inductive Expectation where
  | expression
  | name
  /-- A definition or the end of the script. -/
  | item
  /-- One particular sign or word. -/
  | sign (token : Token)
  deriving DecidableEq

/-- The expectation as a message shows it. -/
def Expectation.written : Expectation → String
  | .expression => "expression"
  | .name => "identifier"
  | .item => "top-level `fn` or `let`"
  | .sign token => "`" ++ token.written ++ "`"

/-- What can be wrong with a script before it runs. -/
inductive Problem where
  /-- A text is not closed on its line. -/
  | unterminatedText
  /-- A character starts no token. -/
  | unexpectedCharacter
  /-- A backslash is followed by a character that has no escape. -/
  | invalidEscape
  /-- A numeric escape is not one to six hexadecimal digits between braces. -/
  | invalidUnicodeEscape
  /-- A numeric escape names no character. -/
  | invalidCodePoint
  /-- A whole number does not fit. -/
  | numberOutOfRange
  /-- A token cannot stand where it stands. -/
  | unexpectedToken (expected : Expectation)
  /-- Two functions share a name. -/
  | duplicateFunction (name : String)
  /-- A constant shares its name with another definition. -/
  | duplicateDefinition (name : String)
  /-- A function declares a parameter twice. -/
  | duplicateParameter (param function : String)
  /-- Brackets are nested too deep. -/
  | bracketsTooDeep (limit : Nat)
  /-- An expression is nested too deep. -/
  | expressionTooDeep (limit : Nat)
  /-- The left side of an assignment names no storage. -/
  | notAPlace
  /-- A positional argument stands after a keyword argument. -/
  | positionalAfterKeyword
  deriving DecidableEq

namespace Problem

/-- The stable code of a problem. -/
def code : Problem → String
  | .unterminatedText => "E001"
  | .unexpectedCharacter => "E002"
  | .invalidEscape => "E003"
  | .invalidUnicodeEscape => "E004"
  | .invalidCodePoint => "E005"
  | .numberOutOfRange => "E006"
  | .unexpectedToken _ => "E100"
  | .duplicateFunction _ => "E200"
  | .duplicateParameter _ _ => "E201"
  | .duplicateDefinition _ => "E202"
  | .bracketsTooDeep _ => "E203"
  | .expressionTooDeep _ => "E203"
  | .notAPlace => "E204"
  | .positionalAfterKeyword => "E205"

/-- What the code stands for. -/
def about : Problem → String
  | .unterminatedText => "unterminated string literal"
  | .unexpectedCharacter => "unexpected character"
  | .invalidEscape => "invalid escape sequence"
  | .invalidUnicodeEscape => "invalid unicode escape"
  | .invalidCodePoint => "invalid unicode codepoint"
  | .numberOutOfRange => "number literal out of range"
  | .unexpectedToken _ => "unexpected token"
  | .duplicateFunction _ => "duplicate function"
  | .duplicateParameter _ _ => "duplicate parameter"
  | .duplicateDefinition _ => "duplicate top-level name"
  | .bracketsTooDeep _ | .expressionTooDeep _ => "nesting too deep"
  | .notAPlace => "invalid assignment target"
  | .positionalAfterKeyword => "positional argument after keyword argument"

/-- The problem in words. -/
def message : Problem → String
  | .unexpectedToken expected => "unexpected token: expected " ++ expected.written
  | .duplicateFunction name => s!"duplicate function `{name}`"
  | .duplicateDefinition name => s!"`{name}` is defined more than once at top level"
  | .duplicateParameter param function => s!"parameter `{param}` is declared twice in `{function}`"
  | .bracketsTooDeep limit => s!"brackets are nested deeper than the limit of {limit}"
  | .expressionTooDeep limit => s!"expression is nested deeper than the limit of {limit}"
  | .notAPlace => "cannot assign to this expression"
  | .positionalAfterKeyword => "positional argument follows a keyword argument"
  | other => other.about

/-- A hint that goes with the message. -/
def help? : Problem → Option String
  | .unterminatedText => some "add closing `\"` before the end of the line"
  | .unexpectedCharacter => none
  | .invalidEscape => some <| "valid escapes: `\\n`, `\\r`, `\\t`, `\\\\`, `\\'`, `\\\"`, " ++
      "`\\0`, `\\u\x7b\x7d`"
  | .invalidUnicodeEscape => some "use format `\\u\x7bXXXX\x7d` with 1-6 hex digits"
  | .invalidCodePoint => some "valid range: `0x0000`-`0xD7FF` or `0xE000`-`0x10FFFF`"
  | .numberOutOfRange => some "integers must fit in 64 bits; write large values as floats"
  | .unexpectedToken _ => some "check syntax and token positioning"
  | .duplicateFunction _ | .duplicateDefinition _ => some "rename one of the definitions"
  | .duplicateParameter _ _ => none
  | .bracketsTooDeep _ | .expressionTooDeep _ =>
    some "split the expression into named helper values"
  | .notAPlace => some "assign to a variable, `value.field` or `list[index]`"
  | .positionalAfterKeyword => some "move positional arguments before keyword arguments"

end Problem

/-- A place with a remark. -/
structure Label where
  /-- The place. -/
  span : Span
  /-- The remark. -/
  text : String
  /-- Whether it marks the problem itself, and not a place related to it. -/
  primary : Bool
  deriving DecidableEq

/-- One problem of a script with the places it concerns. -/
structure Diagnostic where
  /-- What is wrong. -/
  problem : Problem
  /-- Where, the problem itself first. -/
  labels : List Label
  deriving DecidableEq

namespace Diagnostic

/-- A problem at one place. -/
def single (problem : Problem) (span : Span) (text : String) : Diagnostic :=
  ⟨problem, [⟨span, text, true⟩]⟩

/-- A problem at one place that is related to another. -/
def related (problem : Problem) (span : Span) (text : String) (other : Span) (otherText : String) :
    Diagnostic :=
  ⟨problem, [⟨span, text, true⟩, ⟨other, otherText, false⟩]⟩

/-- The place of the first primary label. -/
def primary? (d : Diagnostic) : Option Span :=
  (d.labels.find? Label.primary).map Label.span

/-- The diagnostic on one line. -/
def line (d : Diagnostic) : String :=
  "error[" ++ d.problem.code ++ "]: " ++ d.problem.message

/-- Several diagnostics on one line: the first, and how many more there are. -/
def summary : List Diagnostic → String
  | [] => ""
  | [d] => d.line
  | d :: more => d.line ++ s!" (+{more.length} more)"

end Diagnostic

end LandPattern.Script
