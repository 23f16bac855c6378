/-!
# Paths of files

A path is followed name by name from the directory at its start. A point stays, two points go up, and
any other name has to be there: a directory on the way, or the file at the end. The directories that
are known are those on the way to the known files.

## Main definitions

* `PathFault`: why a path leads to no file.
* `Location`: a directory.
* `follow`: where a path leads.
* `readFile`: the content of the file at a path.
-/
namespace TokenGrammar

/-- Why a path leads to no file. -/
inductive PathFault where
  | missing
  | notDirectory
  | isDirectory
  | invalid
  | tooLong
deriving Repr, DecidableEq, Inhabited

/-- The wording of a path fault. A directory can be opened, but not read. -/
def PathFault.message (path : String) : PathFault → String
  | .missing => "open " ++ path ++ ": no such file or directory"
  | .notDirectory => "open " ++ path ++ ": not a directory"
  | .isDirectory => "read " ++ path ++ ": is a directory"
  | .invalid => "open " ++ path ++ ": invalid argument"
  | .tooLong => "open " ++ path ++ ": file name too long"

/-- A directory: below the root or below the working directory, the number of levels above it, and
the names on the way. -/
structure Location where
  absolute : Bool
  above : Nat
  names : List String
deriving Repr, DecidableEq, Inhabited

namespace Location

/-- The directory at the start of a path. -/
def start (path : String) : Location := ⟨path.toList.head? = some '/', 0, []⟩

/-- The directory around a directory. The root is its own. -/
def parent (l : Location) : Location :=
  if l.names.isEmpty then if l.absolute then l else { l with above := l.above + 1 }
  else { l with names := l.names.dropLast }

/-- The location of a name in a directory. -/
def child (l : Location) (name : String) : Location := { l with names := l.names ++ [name] }

end Location

/-- The names of a path. -/
def pathNames (path : String) : List String := path.splitOn "/"

/-- A name that stays in the directory. -/
def isIdle (name : String) : Bool := name = "" || name = "."

/-- The location of a known file. -/
def locationOf (path : String) : Location :=
  (pathNames path).foldl
    (fun l name => if isIdle name then l else if name = ".." then l.parent else l.child name)
    (.start path)

/-- The longest name in bytes. -/
def maxNameSize : Nat := 255

/-- The longest path in bytes. -/
def maxPathSize : Nat := 4095

/-- Follows names from a directory to the content of a file. -/
def follow (files : List (Location × String)) (l : Location) :
    List String → Except PathFault String
  | [] => .error .isDirectory
  | name :: rest =>
    if isIdle name then follow files l rest
    else if name = ".." then follow files l.parent rest
    else if maxNameSize < name.utf8ByteSize then .error .tooLong
    else
      let inner := l.child name
      match files.lookup inner with
      | some text => if rest.isEmpty then .ok text else .error .notDirectory
      | none =>
        let isDirectory := files.any fun (file, _) =>
          file.absolute = inner.absolute && file.above = inner.above &&
            inner.names.isPrefixOf file.names
        if isDirectory then follow files inner rest else .error .missing

/-- The content of the file at a path. -/
def readFile (files : List (String × String)) (path : String) : Except PathFault String :=
  match files.lookup path with
  | some text => .ok text
  | none =>
    if path.toList.contains (Char.ofNat 0) then .error .invalid
    else if path = "" then .error .missing
    else if maxPathSize < path.utf8ByteSize then .error .tooLong
    else
      follow (files.map fun (name, text) => (locationOf name, text)) (.start path) (pathNames path)

end TokenGrammar
