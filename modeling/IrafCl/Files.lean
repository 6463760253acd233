import IrafCl.Failure

/-!
# Files

A tree of files below one directory, as commands see it: files have a content and a time of change,
directories may be empty. A path is walked name by name from the top; what is found at its end decides
whether it can be read or written.
-/

namespace IrafCl

/-- A file. -/
structure File where
  content : Bytes
  modified : Int
  deriving DecidableEq, Repr

/-- Why a path cannot be used. -/
inductive PathError where
  | noEntry
  | notDirectory
  | isDirectory
  deriving DecidableEq, Repr

def PathError.text : PathError → Bytes
  | .noEntry => "no such file or directory"
  | .notDirectory => "not a directory"
  | .isDirectory => "is a directory"

/-- The failure of an operation on a path. -/
def PathError.failure (e : PathError) (operation path : Bytes) : Failure :=
  .context (operation ++ " " ++ path) (.plain e.text)

/-- Files by path, and all directories below the top. Paths are lists of names. -/
structure FileTree where
  files : List (List Bytes × File)
  dirs : List (List Bytes)
  deriving DecidableEq, Repr

/-- What a path leads to. A vacant path ends with a name that its directory does not hold. -/
inductive Place where
  | file (path : List Bytes) (f : File)
  | directory (path : List Bytes)
  | vacant (path : List Bytes)
  | nowhere (why : PathError)
  deriving DecidableEq, Repr

namespace FileTree

def empty : FileTree := ⟨[], []⟩

/-- The name of a directory in itself. -/
def self : Bytes := "."

/-- The name of the directory above. -/
def above : Bytes := ".."

/-- The names of a path. -/
def names (path : Bytes) : List Bytes := Bytes.pieces (Bytes.ascii '/') path

/-- What a walk leads to after it has left the top: there are directories, and nothing else is known. -/
def outside (rest : List Bytes) : Place :=
  if rest.all fun n => n.isEmpty || n = self || n = above then .directory [above] else .nowhere .noEntry

/-- Walks down from a directory. -/
def walk (t : FileTree) (here : List Bytes) : List Bytes → Place
  | [] => .directory here
  | n :: rest =>
    if n.isEmpty || n = self then t.walk here rest
    else if n = above then if here.isEmpty then outside rest else t.walk here.dropLast rest
    else
      let path := here ++ [n]
      if t.dirs.contains path then t.walk path rest
      else match t.files.lookup path with
        | some f => if rest.isEmpty then .file path f else .nowhere .notDirectory
        | none => if rest.isEmpty then .vacant path else .nowhere .noEntry

/-- What a path leads to. -/
def locate (t : FileTree) (path : Bytes) : Place :=
  if path.isEmpty || path.head? = some (Bytes.ascii '/') then .nowhere .noEntry
  else t.walk [] (names path)

/-- Sets a file at the end of a walk. -/
def setFile (t : FileTree) (path : List Bytes) (f : File) : FileTree :=
  { t with files := t.files.filter (fun p => p.1 ≠ path) ++ [(path, f)] }

/-- The directories on the way to a path. -/
def parents (path : List Bytes) : List (List Bytes) :=
  (List.range (path.length - 1)).map fun n => path.take (n + 1)

/-- Adds a file with the directories on the way to it. -/
def add (t : FileTree) (path : Bytes) (f : File) : FileTree :=
  let path := (names path).filter fun n => !n.isEmpty && n ≠ self
  let t := t.setFile path f
  { t with dirs := t.dirs ++ (parents path).filter fun d => !t.dirs.contains d }

/-- Removes a file, or a directory that holds nothing. -/
def remove (t : FileTree) (path : Bytes) : FileTree :=
  match t.locate path with
  | .file path _ => { t with files := t.files.filter fun p => p.1 ≠ path }
  | .directory path =>
    let inside (p : List Bytes) : Bool := path.isPrefixOf p && p ≠ path
    if t.files.any (fun p => inside p.1) || t.dirs.any inside then t
    else { t with dirs := t.dirs.filter fun d => d ≠ path }
  | _ => t

/-- The content of a file. -/
def read (t : FileTree) (path : Bytes) : Except Failure Bytes :=
  match t.locate path with
  | .file _ f => .ok f.content
  | .directory _ => .error (PathError.isDirectory.failure "read" path)
  | .vacant _ => .error (PathError.noEntry.failure "open" path)
  | .nowhere why => .error (why.failure "open" path)

/-- The size and the time of change of a file; those of a directory are of no account. -/
def stat (t : FileTree) (path : Bytes) : Except Failure (Int × Int) :=
  match t.locate path with
  | .file _ f => .ok (f.content.length, f.modified)
  | .directory _ => .ok (0, 0)
  | .vacant _ => .error (PathError.noEntry.failure "stat" path)
  | .nowhere why => .error (why.failure "stat" path)

/-- Writes a file into a directory that exists. -/
def write (t : FileTree) (path content : Bytes) (now : Int) : Except Failure FileTree :=
  let slash : Bool := path.getLast? = some (Bytes.ascii '/')
  let place := t.locate (if slash then Bytes.dropLastWhile (· == Bytes.ascii '/') path else path)
  match place with
  | .nowhere why => .error (why.failure "open" path)
  | .directory _ => .error (PathError.isDirectory.failure "open" path)
  | .file path' _ | .vacant path' =>
    if slash then .error (PathError.isDirectory.failure "open" path)
    else .ok (t.setFile path' ⟨content, now⟩)

/-- The names of a path without its detours. -/
def cleanParts (parts : List Bytes) : List Bytes → List Bytes
  | [] => parts
  | n :: rest =>
    if n.isEmpty || n = self then cleanParts parts rest
    else if n = above && parts.getLast?.any (· ≠ above) then cleanParts parts.dropLast rest
    else cleanParts (parts ++ [n]) rest

/-- The directory that a path names a file in. -/
def directoryOf (path : Bytes) : Bytes :=
  let root : Bytes := if path.head? = some (Bytes.ascii '/') then "/" else []
  match (cleanParts [] (names path)).dropLast with
  | [] => if root.isEmpty then self else root
  | parts => root ++ Bytes.join "/" parts

/-- The failure when there is nothing to look at under a path. -/
def missing? (t : FileTree) (path : Bytes) : Option PathError :=
  match t.locate path with
  | .nowhere why => some why
  | .vacant _ => some .noEntry
  | _ => none

end FileTree

end IrafCl
