import ItemQuery.Text.Blank

/-! The files that a command can read. -/

namespace ItemQuery.CommandLine

/-- What stands at a path. -/
inductive Entry where
  | file (contents : String)
  | folder
  /-- Nothing; the reason is why the system finds nothing there. -/
  | absent (reason : String)
deriving DecidableEq, Repr

namespace Entry

/-- Nothing of this name. -/
def missing : Entry :=
  absent "No such file or directory (os error 2)"

/-- A path that goes through a file. -/
def blocked : Entry :=
  absent "Not a directory (os error 20)"

/-- Whether there is a file or folder. -/
def isThere : Entry → Bool
  | absent _ => false
  | _ => true

/-- The contents of a file, or why there are none. -/
def contents : Entry → Except String String
  | file text => .ok text
  | folder => .error "Is a directory (os error 21)"
  | absent reason => .error reason

end Entry

/-- What stands at each path. -/
structure Files where
  entry : String → Entry

namespace Files

/-- The files that were looked up before; nothing stands at other paths. -/
def ofEntries (found : List (String × Entry)) : Files where
  entry path := ((found.find? (·.1 == path)).map (·.2)).getD .missing

/-- What stands at names that are followed from the top folder. -/
def entryAt (files : List (List String × String)) (path : List String) : Entry :=
  match files.find? (·.1 == path) with
  | some found => .file found.2
  | none => if path.isEmpty || files.any fun f => path.isPrefixOf f.1 then .folder else .missing

/-- Follows the rest of a path from where it has led so far. Empty names and single points stay, and two points
    go up. -/
def follow (files : List (List String × String)) : List String → List String → Entry
  | reached, [] => entryAt files reached
  | reached, name :: path =>
    match entryAt files reached with
    | .file _ => .blocked
    | .absent reason => .absent reason
    | .folder =>
      if name.isEmpty || name == "." then follow files reached path
      else if name == ".." then follow files reached.dropLast path
      else follow files (reached ++ [name]) path

/-- A folder of files with their paths in it. -/
def ofFolder (files : List (String × String)) : Files where
  entry path :=
    let names (path : String) := Text.pieces (· == '/') path
    if path.isEmpty || path.startsWith "/" then .missing
    else follow (files.map fun f => ((names f.1).filter fun n => !n.isEmpty && n != ".", f.2)) [] (names path)

end Files
end ItemQuery.CommandLine
