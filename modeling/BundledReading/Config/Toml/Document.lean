import BundledReading.Config.Toml.Number
import BundledReading.Config.Toml.Table

/-!
# TOML documents

A text is a sequence of lines, each empty, a comment, a header, or a key with its value. The reader
gives the document that the text is, or nothing if any line is not well formed or defines something
a second time.
-/

namespace BundledReading.Config.Toml

/-! ## Values -/

/-- Drops a comment, up to the end of its line. -/
def skipComment? : List Char → Option (List Char)
  | '#' :: rest => some (rest.dropWhile isPlain)
  | _ => none

/-- Drops blanks, line ends and comments, as they may stand between the items of an array. -/
def skipFiller : Nat → List Char → List Char
  | 0, cs => cs
  | fuel + 1, cs =>
    let cs := skipBlankLines cs
    match skipComment? cs with
    | some rest => skipFiller fuel rest
    | none => cs

/-- A number, a date or a time. -/
def plainValue? (cs : List Char) : Option (Node × List Char) :=
  match moment? cs with
  | some (written, rest) => some (.moment (String.ofList written), rest)
  | none =>
    match float? cs with
    | some (x, rest) => some (.leaf (.float x), rest)
    | none => (integer? cs).map fun (n, rest) => (.leaf (.integer n), rest)

mutual

/-- A value, nested less than `depth` deep. -/
def value? : Nat → Nat → List Char → Option (Node × List Char)
  | 0, _, _ => none
  | fuel + 1, depth, cs =>
    match cs with
    | '"' :: _ => (quoted? cs).map fun (text, rest) => (.leaf (.text (String.ofList text)), rest)
    | '\'' :: _ => (quoted? cs).map fun (text, rest) => (.leaf (.text (String.ofList text)), rest)
    | '[' :: rest =>
      if depth ≤ 1 then none
      else (items? fuel (depth - 1) rest).map fun (items, rest) => (.array items, rest)
    | '\x7b' :: rest =>
      if depth ≤ 1 then none
      else
        match skipBlanks rest with
        | '\x7d' :: rest => some (.table .closed [], rest)
        | rest => (pairs? fuel (depth - 1) [] rest).map fun (entries, rest) =>
          (.table .closed entries, rest)
    | 't' :: rest => (['r', 'u', 'e'].isPrefixOf? rest).map (.leaf (.bool true), ·)
    | 'f' :: rest => (['a', 'l', 's', 'e'].isPrefixOf? rest).map (.leaf (.bool false), ·)
    | _ => plainValue? cs

/-- The items of an array and its closing bracket. -/
def items? : Nat → Nat → List Char → Option (List Node × List Char)
  | 0, _, _ => none
  | fuel + 1, depth, cs =>
    match skipFiller cs.length cs with
    | ']' :: rest => some ([], rest)
    | cs => do
      let (item, rest) ← value? fuel depth cs
      match skipFiller rest.length rest with
      | ',' :: rest =>
        let (items, rest) ← items? fuel depth rest
        return (item :: items, rest)
      | ']' :: rest => some ([item], rest)
      | _ => none

/-- The pairs of a table given as a value, added to `entries`, and its closing brace. -/
def pairs? : Nat → Nat → Entries → List Char → Option (Entries × List Char)
  | 0, _, _, _ => none
  | fuel + 1, depth, entries, cs => do
    let (path, rest) ← keyPath? cs
    let rest ← mark? '=' rest
    let (value, rest) ← value? fuel depth (skipBlanks rest)
    let entries ← Node.insert value true path entries
    match skipBlanks rest with
    | ',' :: rest => pairs? fuel depth entries rest
    | '\x7d' :: rest => some (entries, rest)
    | _ => none

end

/-! ## Lines -/

/-- The end of a line: blanks, perhaps a comment, and a line end or the end of the document. -/
def lineRest? (cs : List Char) : Option (List Char) :=
  let cs := skipBlanks cs
  let cs := (skipComment? cs).getD cs
  match cs with
  | [] => some []
  | cs => lineEnd? cs

/-- A document that has been read up to some line. -/
structure Reading where
  entries : Entries
  /-- The header under which the next keys stand. -/
  header : List String

/-- Opens the table of a header. -/
def Reading.openHeader (reading : Reading) (path : List String) (listed : Bool) : Option Reading :=
  match path.getLast? with
  | none => none
  | some key => do
    let change := if listed then Node.openListed key else Node.openTable key
    let entries ← Node.reach change path.dropLast reading.entries
    return ⟨entries, path⟩

/-- One line. -/
def line? (reading : Reading) (cs : List Char) : Option (Reading × List Char) :=
  match cs with
  | '[' :: '[' :: rest => do
    let (path, rest) ← keyPath? rest
    let rest ← mark? ']' rest
    let rest ← mark? ']' rest
    let reading ← reading.openHeader path true
    return (reading, ← lineRest? rest)
  | '[' :: rest => do
    let (path, rest) ← keyPath? rest
    let rest ← mark? ']' rest
    let reading ← reading.openHeader path false
    return (reading, ← lineRest? rest)
  | [] => some (reading, [])
  | c :: _ =>
    if c = '#' || c = '\n' || c = '\r' then do return (reading, ← lineRest? cs)
    else do
      let (path, rest) ← keyPath? cs
      let rest ← mark? '=' rest
      let (value, rest) ← value? (2 * rest.length + 2) depthLimit (skipBlanks rest)
      let entries ← Node.reach (Node.insert value true path) reading.header reading.entries
      return ({ reading with entries }, ← lineRest? rest)

/-- All further lines. -/
def lines? : Nat → Reading → List Char → Option Entries
  | 0, _, _ => none
  | fuel + 1, reading, cs =>
    match skipBlanks cs with
    | [] => some reading.entries
    | cs => do
      let (reading, rest) ← line? reading cs
      lines? fuel reading rest

/-- The entries of a document, without a byte order mark at its front. -/
def entries? (document : String) : Option Entries :=
  let cs := match document.toList with
    | '\ufeff' :: rest => rest
    | cs => cs
  lines? (cs.length + 1) ⟨[], []⟩ cs

/-- The document that a whole text is. -/
def parse? (document : String) : Option Document := (entries? document).bind Node.tableDocument?

/-- The format of files whose names end in `toml`. -/
def format : Format where
  endings := ["toml"]
  read text :=
    match parse? text with
    | some root => .ok root
    | none => .error "TOML parse error"

end BundledReading.Config.Toml
