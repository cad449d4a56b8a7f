import LandPattern.Number.Notation
import LandPattern.Script.Span
import LandPattern.Text.Quoted

/-!
# Tokens

The words of a script. Blanks, line ends and comments are tokens too, so that spans stay exact;
they are set aside before the script is read.
-/

namespace LandPattern.Script

/-- One word of a script. -/
inductive Token where
  | wordFn | wordLet | wordReturn | wordIf | wordElse | wordFor | wordIn
  | wordTrue | wordFalse | wordNone | wordAnd | wordOr | wordNot
  /-- A whole number in the range of script integers. -/
  | int (value : Int)
  /-- A number with a point or an exponent. -/
  | float (value : Float)
  /-- A text between quotes, with its escapes resolved. -/
  | text (value : String)
  | name (value : String)
  | plus | minus | star | slash | percent
  | equals | equalsEquals | bangEquals
  | less | lessEquals | greater | greaterEquals
  | plusEquals | minusEquals | starEquals | slashEquals
  | leftParen | rightParen | leftBracket | rightBracket | leftBrace | rightBrace
  | comma | dot | semicolon
  /-- Two slashes and the rest of the line. -/
  | comment
  /-- Blanks other than the line end. -/
  | blank
  | newline
  deriving DecidableEq

namespace Token

/-- Tokens that carry no meaning. -/
def isTrivia : Token → Bool
  | .comment | .blank | .newline => true
  | _ => false

/-- Tokens that open a nesting level. -/
def isOpening : Token → Bool
  | .leftParen | .leftBracket | .leftBrace => true
  | _ => false

/-- Tokens that close a nesting level. -/
def isClosing : Token → Bool
  | .rightParen | .rightBracket | .rightBrace => true
  | _ => false

/-- The reserved words, with the token each of them is. -/
def words : List (String × Token) :=
  [("fn", .wordFn), ("let", .wordLet), ("return", .wordReturn), ("if", .wordIf),
    ("else", .wordElse), ("for", .wordFor), ("in", .wordIn), ("true", .wordTrue),
    ("false", .wordFalse), ("none", .wordNone), ("and", .wordAnd), ("or", .wordOr),
    ("not", .wordNot)]

/-- A word is reserved or a name. -/
def ofWord (word : String) : Token := (words.lookup word).getD (.name word)

/-- The token as a message shows it. -/
def written : Token → String
  | .wordFn => "fn"
  | .wordLet => "let"
  | .wordReturn => "return"
  | .wordIf => "if"
  | .wordElse => "else"
  | .wordFor => "for"
  | .wordIn => "in"
  | .wordTrue => "true"
  | .wordFalse => "false"
  | .wordNone => "none"
  | .wordAnd => "and"
  | .wordOr => "or"
  | .wordNot => "not"
  | .int value => toString value
  | .float value => Number.valueText.write value
  | .text value => Text.quote value
  | .name value => value
  | .plus => "+"
  | .minus => "-"
  | .star => "*"
  | .slash => "/"
  | .percent => "%"
  | .equals => "="
  | .equalsEquals => "=="
  | .bangEquals => "!="
  | .less => "<"
  | .lessEquals => "<="
  | .greater => ">"
  | .greaterEquals => ">="
  | .plusEquals => "+="
  | .minusEquals => "-="
  | .starEquals => "*="
  | .slashEquals => "/="
  | .leftParen => "("
  | .rightParen => ")"
  | .leftBracket => "["
  | .rightBracket => "]"
  | .leftBrace => "\x7b"
  | .rightBrace => "\x7d"
  | .comma => ","
  | .dot => "."
  | .semicolon => ";"
  | .comment => "//"
  | .blank => " "
  | .newline => "\n"

end Token

/-- A token where it is written. -/
structure Placed where
  /-- The word. -/
  token : Token
  /-- Where it stands. -/
  span : Span
  deriving DecidableEq

end LandPattern.Script
