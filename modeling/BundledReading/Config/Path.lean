/-!
# Paths

Names of files, as texts whose components stand between slashes. Slashes and single points at the
end of a path name nothing more than what stands before them, but only a directory may be named
so.
-/

namespace BundledReading.Config.Path

/-- The components of a path. Empty ones, and single points, name nothing. -/
def components (path : String) : List (List Char) :=
  (path.toList.splitOn '/').filter fun component => component ≠ [] && component ≠ ['.']

/-- Whether a path starts at the root. -/
def isAbsolute (path : String) : Bool := path.toList.head? = some '/'

/-- The path of a name in a directory. -/
def inDirectory (directory name : String) : String :=
  if isAbsolute name then name
  else if directory.toList.getLast? = some '/' then directory ++ name
  else directory ++ "/" ++ name

/-- Drops what two lists begin with in common. -/
def dropCommon {α : Type} [BEq α] : List α → List α → List α × List α
  | a :: as, b :: bs => if a == b then dropCommon as bs else (a :: as, b :: bs)
  | as, bs => (as, bs)

/-- The way from a directory to a file, both given from the same place. -/
def wayFrom (directory file : String) : String :=
  let (up, down) := dropCommon (components directory) (components file)
  String.intercalate "/" (up.map (fun _ => "..") ++ down.map String.ofList)

/-- Drops slashes and single points from the front of a path that is written backwards. -/
def dropIdle : List Char → List Char
  | '/' :: rest => dropIdle rest
  | '.' :: '/' :: rest => dropIdle rest
  | cs => cs

/-- Whether a path may name a file: nothing idle stands at its end. -/
def mayBeFile (path : String) : Bool :=
  let cs := path.toList.reverse
  dropIdle cs = cs

/-- What follows the last point of a path, if its last component has something before that
point. -/
def ending? (path : String) : Option String :=
  let last := path.toList.reverse.takeWhile (· ≠ '/')
  let ending := (last.takeWhile (· ≠ '.')).reverse
  if ending.length + 1 < last.length then some (String.ofList ending) else none

/-- A path whose last component goes on with an ending, if that component is a name. -/
def extend? (path ending : String) : Option String :=
  let cs := dropIdle path.toList.reverse
  let last := cs.takeWhile (· ≠ '/')
  if last = [] || last = ['.'] || last = ['.', '.'] then none
  else some (String.ofList cs.reverse ++ "." ++ ending)

end BundledReading.Config.Path
