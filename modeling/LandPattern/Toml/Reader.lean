/-!
# Reading text

Readers take characters from the front of a text and give back what they found, or nothing when the
text is not as they need it.
-/

namespace LandPattern.Toml

/-- Takes characters from the front of a text. -/
abbrev Reader := StateT (List Char) Option

namespace Reader

/-- Gives up. -/
def fail {α : Type} : Reader α := fun _ => none

/-- The next character, which stays where it is. -/
def peek? : Reader (Option Char) := do return (← get).head?

/-- The next character, which is taken. -/
def next : Reader Char := do
  match ← get with
  | [] => fail
  | c :: rest =>
    set rest
    return c

/-- Takes one particular character. -/
def expect (c : Char) : Reader Unit := do
  if (← next) != c then fail

/-- Takes one particular character, if it comes next. -/
def accept (c : Char) : Reader Bool := do
  match ← get with
  | d :: rest =>
    if d == c then
      set rest
      return true
    else return false
  | [] => return false

/-- Takes characters as long as they have a property. -/
def takeWhile (holds : Char → Bool) : Reader (List Char) := do
  let text ← get
  set (text.dropWhile holds)
  return text.takeWhile holds

/-- Takes as many characters as asked for. -/
def take (count : Nat) : Reader (List Char) := do
  let text ← get
  if text.length < count then fail
  else
    set (text.drop count)
    return text.take count

/-- Whether the text goes on like this; nothing is taken. -/
def follows (word : List Char) : Reader Bool := do return word.isPrefixOf (← get)

end Reader

/-- Blanks inside a line. -/
def isBlank (c : Char) : Bool := c == ' ' || c == '\t'

/-- The signs of the end of a line. -/
def isLineSign (c : Char) : Bool := c == '\n' || c == '\r'

/-- Characters that cannot stand in comments and texts. -/
def isControl (c : Char) : Bool := (c.toNat < 0x20 && c != '\t') || c.toNat == 0x7f

/-- Takes blanks. -/
def blanks : Reader Unit := do
  let _ ← Reader.takeWhile isBlank

/-- Takes a comment, if one comes next. -/
def comment : Reader Unit := do
  if ← Reader.accept (Char.ofNat 0x23) then
    let words ← Reader.takeWhile fun c => !isLineSign c
    if words.any isControl then Reader.fail

/-- Takes the end of a line; the end of the text counts as one. -/
def lineEnd : Reader Unit := do
  match ← get with
  | [] => return ()
  | '\n' :: rest => set rest
  | '\r' :: '\n' :: rest => set rest
  | _ => Reader.fail

/-- Takes blanks, comments and ends of lines, as many as there are; `rounds` is at least the number
of lines. -/
def gaps (rounds : Nat) : Reader Unit :=
  match rounds with
  | 0 => return ()
  | rest + 1 => do
    blanks
    comment
    match ← Reader.peek? with
    | some c =>
      if isLineSign c then
        lineEnd
        gaps rest
    | none => return ()

end LandPattern.Toml
