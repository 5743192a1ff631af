import BundledReading.Config.Document
import BundledReading.Config.Error
import BundledReading.Numeric.Reading
import BundledReading.Text.LowerCase

/-!
# Settings

What a configuration file or the environment says, as a tree: scalar values and arrays with the
place they come from, and tables of settings by key. Setting a key reaches into the tree and
replaces what stands in the way; a table that is set over a table is merged into it, and an array
grows as far as an index asks. Keys are kept in lower case, except in the items of arrays.
-/

namespace BundledReading.Config

/-- How the value of a document is kept: a whole number of more than 63 bits as a floating-point
number. -/
def Scalar.kept : Scalar → Scalar
  | .integer value =>
    if value < Nat.pow 2 63 then .integer value else .float (Numeric.Binary64.ofInt value)
  | value => value

/-- A setting: a value or an array and where it comes from, or a table. -/
inductive Setting where
  | leaf (value : Scalar) (origin : Option String)
  | array (items : List Setting) (origin : Option String)
  | table (entries : List (String × Setting))
  deriving Inhabited

namespace Setting

/-- A table without entries. -/
def empty : Setting := .table []

/-- The setting of a place that has been made but not set. -/
def unset : Setting := .leaf .unit none

/-- The entries of a table; none of anything else. -/
def entries : Setting → List (String × Setting)
  | .table entries => entries
  | _ => []

/-- The items of an array; none of anything else. -/
def items : Setting → List Setting
  | .array items _ => items
  | _ => []

/-- Where an array comes from. -/
def arrayOrigin : Setting → Option String
  | .array _ origin => origin
  | _ => none

/-- The setting of a key among entries. -/
def find? (key : String) : List (String × Setting) → Option Setting
  | [] => none
  | (k, setting) :: rest => if k = key then some setting else find? key rest

/-- Puts the setting of a key among entries, in the place of an older one. -/
def put (key : String) (setting : Setting) : List (String × Setting) → List (String × Setting)
  | [] => [(key, setting)]
  | (k, old) :: rest =>
    if k = key then (k, setting) :: rest else (k, old) :: put key setting rest

theorem find?_put_self (key : String) (setting : Setting) (entries : List (String × Setting)) :
    find? key (put key setting entries) = some setting := by
  induction entries with
  | nil => simp [put, find?]
  | cons entry rest ih =>
      by_cases h : entry.1 = key
      · simp [put, find?, h]
      · simp [put, find?, h, ih]

theorem find?_put_of_ne {key other : String} (h : key ≠ other) (setting : Setting)
    (entries : List (String × Setting)) :
    find? other (put key setting entries) = find? other entries := by
  induction entries with
  | nil => simp [put, find?, h]
  | cons entry rest ih =>
      by_cases hk : entry.1 = key
      · simp [put, find?, hk, h]
      · by_cases ho : entry.1 = other
        · simp [put, find?, ho, Ne.symm h]
        · simp [put, find?, hk, ho, ih]

mutual

/-- Sets `key` in `root` to `setting`. A table is merged entry by entry into what is there. -/
def assign (key : String) : Setting → Setting → Setting
  | .leaf value origin, root =>
    .table (put (Text.LowerCase.toLower key) (.leaf value origin) root.entries)
  | .array items origin, root =>
    .table (put (Text.LowerCase.toLower key) (.array items origin) root.entries)
  | .table incoming, root =>
    let target := (find? (Text.LowerCase.toLower key) root.entries).getD empty
    .table (put (Text.LowerCase.toLower key) (assignAll incoming target) root.entries)

/-- Sets all entries in `root`, one after the other. -/
def assignAll : List (String × Setting) → Setting → Setting
  | [], root => root
  | (key, setting) :: rest, root => assignAll rest (assign key setting root)

end

/-! ## Key paths -/

/-- A step of a key path: into a table, or into an array, from its end if the index is
negative. -/
inductive Segment where
  | key (name : String)
  | index (index : Int)
  deriving DecidableEq

/-- The place of an index in an array of some length. -/
def placeOf (index : Int) (length : Nat) : Except IndexFault Nat :=
  if 0 ≤ index then .ok index.toNat
  else if index.natAbs ≤ length then .ok (length - index.natAbs)
  else .error .beforeFirst

/-- The greatest number of items of an array: 96 bytes are an item's room, and `2 ^ 63` bytes are
beyond memory. -/
def itemLimit : Nat := (Nat.pow 2 63 - 1) / 96

/-- Items among which there is a place, made up of `items` and of as many unset ones as needed. -/
def reachPlace (place : Nat) (items : List Setting) : Except IndexFault (List Setting) :=
  if place < items.length then .ok items
  else if itemLimit ≤ place then .error .tooFar
  else .ok (items ++ List.replicate (place + 1 - items.length) unset)

/-- Sets what a path leads to. Whatever is not a table or an array on the way becomes one. -/
def assignAt : List Segment → Setting → Setting → Except IndexFault Setting
  | [], setting, _ => .ok setting
  | [.key name], setting, root => .ok (assign name setting root)
  | .key name :: rest, setting, root => do
    let inner ← assignAt rest setting ((find? name root.entries).getD unset)
    return .table (put name inner root.entries)
  | .index index :: rest, setting, root => do
    let place ← placeOf index root.items.length
    let items ← reachPlace place root.items
    let inner ← assignAt rest setting (items[place]?.getD unset)
    return .array (items.set place inner) root.arrayOrigin

/-- Whether a character may stand in a name of a key path. -/
def isPathCharacter (c : Char) : Bool := c.isAlphanum || c = '_' || c = '-' || c = ' '

/-- A blank that may stand around an index. -/
def isIndexBlank (c : Char) : Bool := c = ' ' || c = '\t'

/-- The index that stands between brackets: a whole number of 64 bits with its sign, a plus sign
apart, and perhaps blanks around it. -/
def index? (cs : List Char) : Option Int :=
  let trimmed := ((cs.dropWhile isIndexBlank).reverse.dropWhile isIndexBlank).reverse
  let (negative, ds) := match trimmed with
    | '-' :: ds => (true, ds)
    | ds => (false, ds)
  let n := Nat.ofDigitChars 10 ds 0
  if ds.isEmpty || !ds.all Char.isDigit then none
  else if negative then if n ≤ Nat.pow 2 63 then some (-n) else none
  else if n < Nat.pow 2 63 then some n
  else none

/-- A step into a table by a key, in lower case. -/
def Segment.ofName (name : String) : Segment := .key (Text.LowerCase.toLower name)

/-- The further steps of a path whose beginning has been read. -/
def furtherSegments? : Nat → List Char → Option (List Segment)
  | _, [] => some []
  | 0, _ => none
  | fuel + 1, '.' :: rest =>
    let (name, rest) := rest.span isPathCharacter
    if name.isEmpty then none
    else (.ofName (String.ofList name) :: ·) <$> furtherSegments? fuel rest
  | fuel + 1, '[' :: rest =>
    match rest.span (· ≠ ']') with
    | (inner, ']' :: rest) => do
      let index ← index? inner
      (.index index :: ·) <$> furtherSegments? fuel rest
    | _ => none
  | _, _ => none

/-- The steps that a key spells as it is written; a key that spells no path is one step. -/
def segments (key : String) : List Segment :=
  let (name, rest) := key.toList.span isPathCharacter
  if name.isEmpty then [.ofName key]
  else
    match furtherSegments? rest.length rest with
    | some steps => .ofName (String.ofList name) :: steps
    | none => [.ofName key]

/-- Sets what a key of a file or of the environment leads to. -/
def assignKey (key : String) (setting root : Setting) : Except IndexFault Setting :=
  assignAt (segments key) setting root

/-- Lays entries over `root`, one after the other. -/
def layer (root : Setting) (entries : List (String × Setting)) : Except IndexFault Setting :=
  entries.foldlM (fun root entry => assignKey entry.1 entry.2 root) root

/-- Whether a key spells a path of more than one step. -/
def spellsPath (key : String) : Bool := 1 < (segments key).length

/-- Follows the keys of a table that spell a path now that they are in lower case, though they
spelt none as they were written. They are set after all others. -/
def followPaths (root : Setting) : Except IndexFault Setting :=
  let (paths, others) := root.entries.partition fun entry => spellsPath entry.1
  layer (.table others) paths

mutual

/-- The setting that a document is, from the place `origin`. -/
def ofDocument (origin : Option String) : Document → Setting
  | .scalar value => .leaf value.kept origin
  | .array items => .array (itemsOfDocuments origin items) origin
  | .table fields => .table (entriesOfFields origin fields)

/-- The settings of the items of an array. -/
def itemsOfDocuments (origin : Option String) : List Document → List Setting
  | [] => []
  | item :: rest => ofDocument origin item :: itemsOfDocuments origin rest

/-- The entries that the fields of a table are. -/
def entriesOfFields (origin : Option String) : List (String × Document) → List (String × Setting)
  | [] => []
  | (name, value) :: rest => (name, ofDocument origin value) :: entriesOfFields origin rest

end

end Setting

end BundledReading.Config
