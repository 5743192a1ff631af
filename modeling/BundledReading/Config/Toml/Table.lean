import BundledReading.Config.Document
import BundledReading.Config.Toml.Moment

/-!
# Tables of TOML

A document builds its tables statement by statement, and each table remembers how it came to be:
by a header of its own, on the way to another header, by a key with points, or as a value. Only
what was made on the way to another header may still get a header of its own, and only what was
made by keys with points gets further values from keys with points.
-/

namespace BundledReading.Config.Toml

/-- How a table came to be. -/
inductive TableMark where
  /-- By a header, or as the document itself. -/
  | header
  /-- On the way to another header. -/
  | implicit
  /-- By a key with points. -/
  | dotted
  /-- As a value, complete. -/
  | closed
  deriving DecidableEq, Inhabited

/-- What stands under a key: a scalar, a date or time, an array, a table, or the tables of a list
of headers, the last one first. -/
inductive Node where
  | leaf (value : Scalar)
  | moment (written : String)
  | array (items : List Node)
  | table (mark : TableMark) (entries : List (String × Node))
  | tables (items : List (List (String × Node)))
  deriving Inhabited

/-- The entries of a table. -/
abbrev Entries := List (String × Node)

namespace Node

/-- What stands under a key. -/
def find? (key : String) : Entries → Option Node
  | [] => none
  | (k, node) :: rest => if k = key then some node else find? key rest

/-- Puts a node under a key, in the place of an older one. -/
def put (key : String) (node : Node) : Entries → Entries
  | [] => [(key, node)]
  | (k, old) :: rest => if k = key then (k, node) :: rest else (k, old) :: put key node rest

/-- Changes the table that a path of headers leads to, making tables on the way. -/
def reach (change : Entries → Option Entries) : List String → Entries → Option Entries
  | [], entries => change entries
  | key :: path, entries =>
    match find? key entries with
    | none => do
      let inner ← reach change path []
      return put key (.table .implicit inner) entries
    | some (.table .closed _) => none
    | some (.table mark inner) => do
      let inner ← reach change path inner
      return put key (.table mark inner) entries
    | some (.tables (last :: before)) => do
      let last ← reach change path last
      return put key (.tables (last :: before)) entries
    | some _ => none

/-- Adds a value under the last of several keys; the table that gets it must be made by a key with
points unless there is only one key. Tables that have a header of their own, or are values,
cannot be passed on the way. -/
def insert (value : Node) (mayAdd : Bool) : List String → Entries → Option Entries
  | [], _ => none
  | [key], entries =>
    match find? key entries with
    | none => if mayAdd then some (put key value entries) else none
    | some _ => none
  | key :: path, entries =>
    match find? key entries with
    | none => do
      let inner ← insert value true path []
      return put key (.table .dotted inner) entries
    | some (.table .dotted inner) => do
      let inner ← insert value true path inner
      return put key (.table .dotted inner) entries
    | some (.table .implicit inner) => do
      let inner ← insert value false path inner
      return put key (.table .implicit inner) entries
    | some (.tables (last :: before)) => do
      let last ← insert value false path last
      return put key (.tables (last :: before)) entries
    | some _ => none

/-- Opens the table of a header at the end of the entries: a new one, or one that was only on the
way so far. -/
def openTable (key : String) (entries : Entries) : Option Entries :=
  let others := entries.filter fun entry => entry.1 ≠ key
  match find? key entries with
  | none => some (others ++ [(key, .table .header [])])
  | some (.table .implicit inner) => some (others ++ [(key, .table .header inner)])
  | some _ => none

/-- Adds a table to the list of tables of a header. -/
def openListed (key : String) (entries : Entries) : Option Entries :=
  match find? key entries with
  | none => some (put key (.tables [[]]) entries)
  | some (.tables items) => some (put key (.tables ([] :: items)) entries)
  | some _ => none

/-- The key that, as the first of a table, makes the table stand for a date or time. -/
def momentKey : String := "$__toml_private_datetime"

mutual

/-- The document that a node is. -/
def toDocument? : Node → Option Document
  | .leaf value => some (.scalar value)
  | .moment written => some (.scalar (.text written))
  | .array items => (itemDocuments? items).map .array
  | .table _ entries => tableDocument? entries
  | .tables items => (listedDocuments? items).map (.array ·.reverse)

/-- The document that a table is: a date or time if its first key says so. -/
def tableDocument? : Entries → Option Document
  | [] => some (.table [])
  | (key, node) :: rest =>
    if key = momentKey then
      match node with
      | .leaf (.text text) => (momentOfText? text).map fun written => .scalar (.text written)
      | _ => none
    else do
      let document ← toDocument? node
      let fields ← toFields? rest
      return .table ((key, document) :: fields)

/-- The fields that entries are. -/
def toFields? : Entries → Option (List (String × Document))
  | [] => some []
  | (key, node) :: rest => do
    let document ← toDocument? node
    let fields ← toFields? rest
    return (key, document) :: fields

/-- The documents that the items of an array are. -/
def itemDocuments? : List Node → Option (List Document)
  | [] => some []
  | item :: rest => do
    let document ← toDocument? item
    let documents ← itemDocuments? rest
    return document :: documents

/-- The documents that the tables of a list of headers are. -/
def listedDocuments? : List Entries → Option (List Document)
  | [] => some []
  | entries :: rest => do
    let document ← tableDocument? entries
    let documents ← listedDocuments? rest
    return document :: documents

end

end Node

end BundledReading.Config.Toml
