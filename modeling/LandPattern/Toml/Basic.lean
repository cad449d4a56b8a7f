/-!
# TOML values

The data of a TOML document. A table remembers how it came to be, because that decides what may
still be added to it: a table in braces is complete, and a table named by a header may be named only
once.
-/

namespace LandPattern.Toml

/-- How a table came to be. -/
inductive Origin where
  /-- Written in braces. -/
  | braces
  /-- Needed by a header further down. -/
  | needed
  /-- Made by a dotted key. -/
  | dotted
  /-- Named by a header. -/
  | named
  deriving DecidableEq, Repr

/-- A value of a document. -/
inductive Node where
  | text (value : String)
  | int (value : Int)
  | float (value : Float)
  /-- A number that is too large to be held. -/
  | excess
  | bool (value : Bool)
  /-- A date, a time of day, or both. -/
  | moment (written : String)
  | array (items : List Node)
  | table (origin : Origin) (entries : List (String × Node))
  /-- Tables under one doubled header, the last one first. -/
  | tables (entries : List (List (String × Node)))

mutual

/-- Whether every number in a value can be held. -/
def Node.held (node : Node) : Bool :=
  match node with
  | .text _ | .int _ | .float _ | .bool _ | .moment _ => true
  | .excess => false
  | .array items => itemsHeld items
  | .table _ entries => entriesHeld entries
  | .tables tables => tablesHeld tables

/-- Whether every number in the items of an array can be held. -/
def itemsHeld (items : List Node) : Bool :=
  match items with
  | [] => true
  | node :: rest => node.held && itemsHeld rest

/-- Whether every number in the entries of a table can be held. -/
def entriesHeld (entries : List (String × Node)) : Bool :=
  match entries with
  | [] => true
  | (_, node) :: rest => node.held && entriesHeld rest

/-- Whether every number in a row of tables can be held. -/
def tablesHeld (tables : List (List (String × Node))) : Bool :=
  match tables with
  | [] => true
  | entries :: rest => entriesHeld entries && tablesHeld rest

end

/-- The entries of a table, in the order they were made. -/
abbrev Entries := List (String × Node)

namespace Entries

/-- The entries with another value under a name that they have, or one more entry. -/
def put (entries : Entries) (name : String) (node : Node) : Entries :=
  match entries with
  | [] => [(name, node)]
  | (other, old) :: rest =>
    if other = name then (name, node) :: rest else (other, old) :: put rest name node

/-- Changes the table that a header leads to; tables on the way are made when they are needed, and
of tables under a doubled header the last one is meant. -/
def change (entries : Entries) (path : List String) (act : Entries → Option Entries) :
    Option Entries :=
  match path with
  | [] => act entries
  | name :: rest =>
    match entries.lookup name with
    | none => do
      let inner ← change [] rest act
      return entries.put name (.table .needed inner)
    | some (.table origin inner) =>
      if origin = .braces then none
      else do
        let changed ← change inner rest act
        return entries.put name (.table origin changed)
    | some (.tables (last :: others)) => do
      let changed ← change last rest act
      return entries.put name (.tables (changed :: others))
    | some _ => none

/-- The table named by a header: it must not have been named or written before. -/
def openTable (name : String) (entries : Entries) : Option Entries :=
  match entries.lookup name with
  | none => some (entries.put name (.table .named []))
  | some (.table .needed inner) => some (entries.put name (.table .named inner))
  | some _ => none

/-- One more table under a doubled header. -/
def openNext (name : String) (entries : Entries) : Option Entries :=
  match entries.lookup name with
  | none => some (entries.put name (.tables [[]]))
  | some (.tables others) => some (entries.put name (.tables ([] :: others)))
  | some _ => none

/-- One more entry under a dotted key. The table that it goes to is made by dotted keys only. On the
way there may be tables that headers need, and of tables under a doubled header the last one is
meant. -/
def insert (entries : Entries) (path : List String) (name : String) (node : Node) :
    Option Entries :=
  match path with
  | [] => if (entries.lookup name).isSome then none else some (entries.put name node)
  | first :: rest =>
    match entries.lookup first with
    | none => do
      let inner ← insert [] rest name node
      return entries.put first (.table .dotted inner)
    | some (.table .dotted inner) => do
      let changed ← insert inner rest name node
      return entries.put first (.table .dotted changed)
    | some (.table .needed inner) =>
      if rest.isEmpty then none
      else do
        let changed ← insert inner rest name node
        return entries.put first (.table .needed changed)
    | some (.tables (last :: others)) =>
      if rest.isEmpty then none
      else do
        let changed ← insert last rest name node
        return entries.put first (.tables (changed :: others))
    | some _ => none

end Entries

end LandPattern.Toml
