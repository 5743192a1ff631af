import BundledReading.Config.Json

/-!
# Keys and texts of TOML

Texts stand between quotes: double quotes with escapes or single quotes without, once for a text
on one line and three times for a text of several lines. A key is bare, or a text on one line;
points join keys into a path.

## Implementation notes

Every reader takes a list of characters and gives what it has read together with the rest, or
nothing if the characters are not of its form.
-/

namespace BundledReading.Config.Toml

/-- A blank inside a line. -/
def isBlank (c : Char) : Bool := c = ' ' || c = '\t'

/-- Drops the blanks at the front. -/
def skipBlanks (cs : List Char) : List Char := cs.dropWhile isBlank

/-- A character that may stand in a comment or, quotes and backslash apart, in a text. -/
def isPlain (c : Char) : Bool := c = '\t' || (0x20 ≤ c.toNat && c.toNat ≠ 0x7f)

/-- Drops one line end, if one is at the front. -/
def lineEnd? : List Char → Option (List Char)
  | '\n' :: rest => some rest
  | '\r' :: '\n' :: rest => some rest
  | _ => none

/-- Drops blanks and line ends at the front. -/
def skipBlankLines : List Char → List Char
  | [] => []
  | c :: rest =>
    if isBlank c || c = '\n' then skipBlankLines rest
    else if c = '\r' && rest.head? = some '\n' then skipBlankLines rest
    else c :: rest

/-- The character with a code of several hexadecimal digits. -/
def coded? (count : Nat) (cs : List Char) : Option (Char × List Char) := do
  let ds := cs.take count
  if ds.length < count then none
  else
    let n ← Json.hexNumber? ds
    if n.isValidChar then some (Char.ofNat n, cs.drop count) else none

/-- The character of an escape whose backslash has been read. -/
def escape? : List Char → Option (Char × List Char)
  | 'b' :: rest => some ('\x08', rest)
  | 't' :: rest => some ('\t', rest)
  | 'n' :: rest => some ('\n', rest)
  | 'f' :: rest => some ('\x0c', rest)
  | 'r' :: rest => some ('\r', rest)
  | '"' :: rest => some ('"', rest)
  | '\\' :: rest => some ('\\', rest)
  | 'u' :: rest => coded? 4 rest
  | 'U' :: rest => coded? 8 rest
  | _ => none

/-- A text on one line with escapes, after its opening quote. -/
def escapedLine? : Nat → List Char → Option (List Char × List Char)
  | 0, _ => none
  | _ + 1, [] => none
  | fuel + 1, c :: rest =>
    if c = '"' then some ([], rest)
    else if c = '\\' then do
      let (c, rest) ← escape? rest
      let (cs, rest) ← escapedLine? fuel rest
      return (c :: cs, rest)
    else if isPlain c then do
      let (cs, rest) ← escapedLine? fuel rest
      return (c :: cs, rest)
    else none

/-- A text on one line without escapes, after its opening quote. -/
def literalLine? : List Char → Option (List Char × List Char)
  | [] => none
  | c :: rest =>
    if c = '\'' then some ([], rest)
    else if isPlain c then do
      let (cs, rest) ← literalLine? rest
      return (c :: cs, rest)
    else none

/-- The end of a text of several lines, where a run of quotes is at the front: three of them
close the text, and up to two before these belong to it. Gives these and the rest, or nothing if
the run is too short to close. -/
def closing? (quote : Char) (cs : List Char) : Option (List Char × List Char) :=
  let length := (cs.takeWhile (· = quote)).length
  if length < 3 then none
  else
    let inner := min (length - 3) 2
    some (List.replicate inner quote, cs.drop (inner + 3))

/-- What follows a backslash at the end of a line: the next text that is not blank. -/
def afterLineEscape? (cs : List Char) : Option (List Char) :=
  (lineEnd? (skipBlanks cs)).map skipBlankLines

/-- A text of several lines, after its opening quotes. `escapes` says whether it has escapes. -/
def block? (quote : Char) (escapes : Bool) : Nat → List Char → Option (List Char × List Char)
  | 0, _ => none
  | _ + 1, [] => none
  | fuel + 1, c :: rest =>
    if c = quote then
      match closing? quote (c :: rest) with
      | some closed => some closed
      | none => do
        let (cs, rest) ← block? quote escapes fuel rest
        return (c :: cs, rest)
    else if escapes && c = '\\' then
      match afterLineEscape? rest with
      | some rest => block? quote escapes fuel rest
      | none => do
        let (c, rest) ← escape? rest
        let (cs, rest) ← block? quote escapes fuel rest
        return (c :: cs, rest)
    else
      match lineEnd? (c :: rest) with
      | some rest => do
        let (cs, rest) ← block? quote escapes fuel rest
        return ('\n' :: cs, rest)
      | none =>
        if isPlain c then do
          let (cs, rest) ← block? quote escapes fuel rest
          return (c :: cs, rest)
        else none

/-- Drops a line end that directly follows the opening quotes. -/
def skipFirstLineEnd (cs : List Char) : List Char := (lineEnd? cs).getD cs

/-- A text of any form. -/
def quoted? : List Char → Option (List Char × List Char)
  | '"' :: '"' :: '"' :: rest =>
    let body := skipFirstLineEnd rest
    block? '"' true (body.length + 1) body
  | '"' :: rest => escapedLine? (rest.length + 1) rest
  | '\'' :: '\'' :: '\'' :: rest =>
    let body := skipFirstLineEnd rest
    block? '\'' false (body.length + 1) body
  | '\'' :: rest => literalLine? rest
  | _ => none

/-- A character of a bare key. -/
def isBare (c : Char) : Bool := c.isAlphanum || c = '_' || c = '-'

/-- One key, without points. -/
def simpleKey? : List Char → Option (String × List Char)
  | '"' :: rest => do
    let (cs, rest) ← escapedLine? (rest.length + 1) rest
    return (String.ofList cs, rest)
  | '\'' :: rest => do
    let (cs, rest) ← literalLine? rest
    return (String.ofList cs, rest)
  | cs =>
    let (name, rest) := cs.span isBare
    if name.isEmpty then none else some (String.ofList name, rest)

/-- How deep values may be nested, and how long paths of keys may be, less one. -/
def depthLimit : Nat := 80

/-- At most `limit` keys joined by points, with blanks around each key. -/
def keys? : Nat → List Char → Option (List String × List Char)
  | 0, _ => none
  | limit + 1, cs => do
    let (key, rest) ← simpleKey? (skipBlanks cs)
    match skipBlanks rest with
    | '.' :: rest =>
      let (keys, rest) ← keys? limit rest
      return (key :: keys, rest)
    | rest => return ([key], rest)

/-- A path of keys joined by points. -/
def keyPath? (cs : List Char) : Option (List String × List Char) := keys? (depthLimit - 1) cs

end BundledReading.Config.Toml
