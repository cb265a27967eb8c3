import SeriesLang.Text.Split

/-! # Locations of files

Where a path leads, and whether there is room for a file and its journal at that place. A path is
followed by its text alone: two dots go up, whatever the name before them stands for.
-/

namespace SeriesLang

namespace Location

/-- A path below a directory; an absolute one stands for itself. -/
def join (directory path : String) : String :=
  if path.startsWith "/" then path
  else if directory.endsWith "/" then directory ++ path
  else directory ++ "/" ++ path

/-- A path with a leading tilde replaced by the home directory. -/
def expandHome (home path : String) : String :=
  if path = "~" || path = "~/" then home
  else if path.startsWith "~/" then join home (String.ofList (path.toList.drop 2))
  else path

/-- The absolute form of a path. -/
def resolve (home current path : String) : String :=
  join current (expandHome home path)

/-- The names on an absolute path from the root on. Neither a repeated separator nor a single dot goes
    anywhere. -/
def names (path : String) : List String :=
  ((Text.splitAt '/' path.toList).map String.ofList).filter (fun name => name ≠ "" ∧ name ≠ ".")

/-- Where names lead from the root: two dots go up. -/
def target (names : List String) : List String :=
  (names.foldl (fun reached name => if name = ".." then reached.tail else name :: reached) []).reverse

/-- Where the names lead after each of them, from the root on. -/
def stations (names : List String) : List (List String) :=
  (List.range (names.length + 1)).map (fun count => target (names.take count))

/-- The bytes that a name may have. -/
def nameLimit : Nat := 255

/-- Can a file have this name? -/
def isFileName (name : String) : Bool :=
  name.utf8ByteSize ≤ nameLimit && !name.contains '\x00'

/-- The bytes of the path through the names from the root on, with a separator before each. -/
def size (names : List String) : Nat :=
  (names.map (fun name => name.utf8ByteSize + 1)).foldr (· + ·) 0

/-- Does the piece between two separators stay where it is? -/
def staysPut (piece : List Char) : Bool :=
  piece = [] || piece = ['.']

/-- The path to the directory of a file, as it is written. -/
def directory (path : String) : String :=
  let pieces := (Text.splitAt '/' path.toList).reverse
  let above := ((pieces.dropWhile staysPut).drop 1).dropWhile staysPut
  String.ofList (['/'].intercalate above.reverse)

/-- The bytes that a path of directories to be made may have. -/
def directoryLimit : Nat := 4095

/-- Can directories be made on this path, by its length and names? -/
def isDirectory (path : String) : Bool :=
  path.utf8ByteSize ≤ directoryLimit && (names path).all isFileName

/-- The mark behind the name of a file that names its journal. -/
def journalMark : String := "-journal"

/-- The bytes that the path of a file or a journal may have. -/
def pathLimit : Nat := 512

/-- Can a path that leads through these stations be followed to its target? A separator has to fit
    behind each station, and the mark of the journal behind the target. -/
def isReachable (stations : List (List String)) (target : List String) : Bool :=
  stations.all (fun station => size station < pathLimit) &&
    size target + journalMark.utf8ByteSize ≤ pathLimit

/-- Can the journal of the file stand beside it? -/
def hasJournal (target : List String) : Bool :=
  (target.getLast?.map (fun name => isFileName (name ++ journalMark))).getD false

end Location

end SeriesLang
