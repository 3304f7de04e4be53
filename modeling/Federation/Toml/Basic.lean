/-!
# TOML — tables

A TOML document is a table of keys, whose values are texts, other
scalars, arrays and tables. What may be added to a table depends on how
it came about: a header opens a table once, dotted keys make tables of
their own, and an inline table is finished where it stands.
-/

namespace Federation

/-- How a table came about. -/
inductive TableOrigin
  /-- By a header of its own. -/
  | header
  /-- By the header of a table below it. -/
  | implied
  /-- By a dotted key. -/
  | dotted
  /-- Between braces. -/
  | inline
  deriving DecidableEq, Inhabited, Repr

/-- A TOML value. The keys of a table are different and keep their order. Scalars that are no texts
are told from texts and not from each other. -/
inductive Toml
  | text (s : String)
  | scalar
  | array (items : List Toml)
  | table (origin : TableOrigin) (entries : List (String × Toml))
  | tables (rows : List (List (String × Toml)))
  deriving Inhabited, Repr

namespace Toml

/-- The entries of a table. -/
abbrev Entries := List (String × Toml)

/-- The value of a key. -/
def lookup? (es : Entries) (key : String) : Option Toml :=
  (es.find? (·.1 == key)).map (·.2)

/-- The entries with a new value for a key, which stays in its place or comes last. -/
def put (es : Entries) (key : String) (value : Toml) : Entries :=
  if es.any (·.1 == key) then es.map fun e => if e.1 == key then (key, value) else e
  else es ++ [(key, value)]

/-- The value that holds changed entries in place of a table, or in place of the last table of a
row. Inline tables do not change. -/
def change (f : Entries → Option Entries) : Toml → Option Toml
  | table .inline _ => none
  | table origin es => (f es).map (table origin)
  | tables rows =>
    match rows.getLast? with
    | none => none
    | some es => (f es).map fun es => tables (rows.dropLast ++ [es])
  | text _ | scalar | array _ => none

/-- The entries after the table at the end of a path is changed. Tables on the way that are not
there are implied. -/
def changeAt (f : Entries → Option Entries) : List String → Entries → Option Entries
  | [], es => f es
  | key :: path, es =>
    match lookup? es key with
    | none => (changeAt f path []).map fun below => put es key (table .implied below)
    | some value => (change (changeAt f path) value).map (put es key)

/-- The entries after a header opens a table. A table is opened once, and after headers below it
at most. -/
def openTable (key : String) (es : Entries) : Option Entries :=
  match lookup? es key with
  | none => some (put es key (table .header []))
  | some (table .implied below) => some (put es key (table .header below))
  | some _ => none

/-- The entries after a header opens one more table of a row. -/
def openRow (key : String) (es : Entries) : Option Entries :=
  match lookup? es key with
  | none => some (put es key (tables [[]]))
  | some (tables rows) => some (put es key (tables (rows ++ [[]])))
  | some _ => none

/-- The entries after a value is given to a dotted key. A value is given once, and only dotted keys
add to the tables that dotted keys make. -/
def assign (value : Toml) : (path : List String) → Entries → Option Entries
  | [], _ => none
  | [key], es => if (lookup? es key).isSome then none else some (put es key value)
  | key :: path, es =>
    match lookup? es key with
    | none => (assign value path []).map fun below => put es key (table .dotted below)
    | some (table .dotted below) => (assign value path below).map fun below =>
        put es key (table .dotted below)
    | some _ => none

end Toml

end Federation
