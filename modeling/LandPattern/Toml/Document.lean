import LandPattern.Toml.Scalar

/-!
# Documents

A document is a row of lines: entries, headers that say where the following entries go, blanks and
comments. It is read to the entries of its outermost table.
-/

namespace LandPattern.Toml

/-- How deep brackets may be nested in a value. -/
def deepest : Nat := 80

mutual

/-- A value, with brackets nested at most as deep as `depth` says; `rounds` is at least the number
of characters left. -/
def value (depth rounds : Nat) : Reader Node :=
  match rounds with
  | 0 => Reader.fail
  | rest + 1 => do
    match ← Reader.peek? with
    | none => Reader.fail
    | some c =>
      if c == doubleQuote || c == singleQuote then return .text (← quotedText true)
      else if c == '[' then
        match depth with
        | 0 => Reader.fail
        | inner + 1 =>
          let _ ← Reader.next
          return .array (← items inner rest)
      else if c == Char.ofNat 0x7b then
        match depth with
        | 0 => Reader.fail
        | inner + 1 =>
          let _ ← Reader.next
          return .table .braces (← members inner rest [])
      else scalar

/-- The items of an array up to its closing bracket. -/
def items (depth rounds : Nat) : Reader (List Node) :=
  match rounds with
  | 0 => Reader.fail
  | rest + 1 => do
    gaps rounds
    if ← Reader.accept ']' then return []
    else
      let node ← value depth rest
      gaps rounds
      if ← Reader.accept ',' then return node :: (← items depth rest)
      else
        Reader.expect ']'
        return [node]

/-- The entries of a table in braces after those found, up to its closing brace. Lines may end before
and after every sign of the table, but not inside a key. -/
def members (depth rounds : Nat) (found : Entries) : Reader Entries :=
  match rounds with
  | 0 => Reader.fail
  | rest + 1 => do
    gaps rounds
    if ← Reader.accept (Char.ofNat 0x7d) then return found
    else
      let path ← key
      gaps rounds
      Reader.expect '='
      gaps rounds
      let node ← value depth rest
      match found.insert path.dropLast (path.getLast?.getD "") node with
      | none => Reader.fail
      | some more =>
        gaps rounds
        if ← Reader.accept ',' then members depth rest more
        else
          Reader.expect (Char.ofNat 0x7d)
          return more

end

/-- What a line does. -/
inductive Line where
  | empty
  /-- The following entries go to this table. -/
  | header (path : List String)
  /-- The following entries go to one more table under this name. -/
  | nextHeader (path : List String)
  | entry (path : List String) (node : Node)

/-- A line without its end. -/
def line : Reader Line := do
  let rounds := (← get).length + 1
  blanks
  match ← Reader.peek? with
  | none => return .empty
  | some c =>
    if isLineSign c || c == Char.ofNat 0x23 then return .empty
    else if c == '[' then
      let _ ← Reader.next
      let doubled ← Reader.accept '['
      let path ← key
      Reader.expect ']'
      if doubled then
        Reader.expect ']'
        return .nextHeader path
      else return .header path
    else
      let path ← key
      Reader.expect '='
      blanks
      return .entry path (← value deepest rounds)

/-- The lines of a text; `rounds` is more than their number. -/
def lines (rounds : Nat) : Reader (List Line) :=
  match rounds with
  | 0 => return []
  | rest + 1 => do
    if (← get).isEmpty then return []
    else
      let first ← line
      blanks
      comment
      lineEnd
      return first :: (← lines rest)

/-- The entries that lines make, after those made already; `current` is the path of the table that
entries go to. -/
def entriesOf (current : List String) (made : Entries) : List Line → Option Entries
  | [] => some made
  | .empty :: rest => entriesOf current made rest
  | .header path :: rest => do
    let next ← made.change path.dropLast (Entries.openTable (path.getLast?.getD ""))
    entriesOf path next rest
  | .nextHeader path :: rest => do
    let next ← made.change path.dropLast (Entries.openNext (path.getLast?.getD ""))
    entriesOf path next rest
  | .entry path node :: rest => do
    let next ← made.change current fun entries =>
      entries.insert path.dropLast (path.getLast?.getD "") node
    entriesOf current next rest

/-- The entries of a document; nothing, if the text is no document. A mark of byte order in front is
left out. -/
def ofText? (text : String) : Option Entries := do
  let all := text.toList
  let body := match all with
    | c :: rest => if c.toNat == 0xfeff then rest else all
    | [] => []
  let (found, _) ← lines (body.length + 1) body
  entriesOf [] [] found

end LandPattern.Toml
