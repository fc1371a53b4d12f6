import IdlWorkbench.Path

/-!
# Files on disk

A disk maps lists of names to files and directories; the root is the empty list. Its entries are sorted,
so those below a directory follow it, ordered by name. Only absolute paths name something.

A path is walked segment by segment, unless it is too long as a whole. Only a directory can be walked on
from, even to itself.
-/

namespace IdlWorkbench

inductive Entry where
  /-- A file with its text, or with none if its bytes are not UTF-8. -/
  | file (text : Option String)
  | directory
deriving DecidableEq, Repr

namespace Entry

def ofBytes (bytes : ByteArray) : Entry := .file (String.fromUTF8? bytes)

def isDirectory : Entry → Bool
  | directory => true
  | file _ => false

end Entry

inductive IoError where
  | notFound
  | notADirectory
  | isADirectory
  | nameTooLong
  | nulInName
  | notUtf8
deriving DecidableEq, Repr

def IoError.message : IoError → String
  | notFound => "No such file or directory (os error 2)"
  | notADirectory => "Not a directory (os error 20)"
  | isADirectory => "Is a directory (os error 21)"
  | nameTooLong => "File name too long (os error 36)"
  | nulInName => "file name contained an unexpected NUL byte"
  | notUtf8 => "stream did not contain valid UTF-8"

structure Disk where
  entries : List (List String × Entry) := []
deriving Inhabited

namespace Disk

def find? (d : Disk) (names : List String) : Option Entry :=
  if names = [] then some .directory else List.lookup names d.entries

/-! ## Walking along a path -/

def maxName : Nat := 255

/-- The most bytes that a path can be written with. -/
def maxPath : Nat := 4095

def walk (d : Disk) : (names : List String) → Entry → List String → Except IoError (List String × Entry)
  | names, entry, [] => .ok (names, entry)
  | names, entry, segment :: rest =>
    if !entry.isDirectory then .error .notADirectory
    else
      match segment with
      | "" | "." => walk d names entry rest
      | ".." => walk d names.dropLast .directory rest
      | name =>
        if maxName < name.utf8ByteSize then .error .nameTooLong
        else
          match d.find? (names ++ [name]) with
          | none => .error .notFound
          | some next => walk d (names ++ [name]) next rest

/-- The names and the entry that a path leads to. -/
def locate (d : Disk) (p : Path) : Except IoError (List String × Entry) :=
  if p.segments.any fun s => s.toList.contains '\x00' then .error .nulInName
  else if maxPath < p.text.utf8ByteSize then .error .nameTooLong
  else if p.isAbsolute then walk d [] .directory p.segments.tail
  else .error .notFound

def isFile (d : Disk) (p : Path) : Bool :=
  match d.locate p with
  | .ok (_, .file _) => true
  | _ => false

def isDirectory (d : Disk) (p : Path) : Bool :=
  match d.locate p with
  | .ok (_, .directory) => true
  | _ => false

def read (d : Disk) (p : Path) : Except IoError String :=
  match d.locate p with
  | .ok (_, .file (some text)) => .ok text
  | .ok (_, .file none) => .error .notUtf8
  | .ok (_, .directory) => .error .isADirectory
  | .error e => .error e

def namesIn (d : Disk) (names : List String) : List String :=
  d.entries.filterMap fun (key, _) =>
    match key.getLast? with
    | some name => if key.dropLast = names then some name else none
    | none => none

def list (d : Disk) (p : Path) : Except IoError (List String) :=
  match d.locate p with
  | .ok (names, .directory) => .ok (d.namesIn names)
  | .ok (_, .file _) => .error .notADirectory
  | .error e => .error e

/-- The directory that a path leads to and those below it that their paths lead to, each before what it holds, as
the names behind the path. -/
def directories (d : Disk) (p : Path) : List (List String) :=
  match d.locate p with
  | .ok (names, .directory) =>
    let below := d.entries.filterMap fun (key, entry) =>
      if entry.isDirectory && names.isPrefixOf key && names.length < key.length then
        some (key.drop names.length)
      else none
    ([] :: below).filter fun names => d.isDirectory (names.foldl Path.child p)
  | _ => []

/-! ## Changing a disk -/

/-- Put an entry under a list of names, in its place among the sorted ones. -/
def insertSorted (names : List String) (entry : Entry) :
    List (List String × Entry) → List (List String × Entry)
  | [] => [(names, entry)]
  | (key, e) :: rest =>
    if names = key then (names, entry) :: rest
    else if names < key then (names, entry) :: (key, e) :: rest
    else (key, e) :: insertSorted names entry rest

/-- The lists of names that lead to the directories above an entry, without the root. -/
def parents (names : List String) : List (List String) :=
  (List.range' 1 (names.length - 1)).map fun n => names.take n

/-- Whether an entry can stand under a list of names: nothing above it is a file, and what stands there
already is of the same kind. -/
def accepts (d : Disk) (names : List String) (entry : Entry) : Bool :=
  (parents names).all (fun above => (d.find? above).all Entry.isDirectory) &&
    (d.find? names).all fun e => e.isDirectory == entry.isDirectory

/-- Put an entry under a list of names, if it can stand there, and make the directories it stands in. -/
def insert (d : Disk) (names : List String) (entry : Entry) : Disk :=
  if d.accepts names entry then
    let missing := (parents names).filter fun above => (d.find? above).isNone
    ⟨insertSorted names entry (missing.foldl (fun es above => insertSorted above .directory es) d.entries)⟩
  else d

def write (d : Disk) (p : Path) (entry : Entry) : Disk :=
  d.insert (Path.names p.normalize.components) entry

def remove (d : Disk) (p : Path) : Disk :=
  let names := Path.names p.normalize.components
  ⟨d.entries.filter fun (key, _) => !names.isPrefixOf key⟩

def ofEntries (entries : List (Path × Entry)) : Disk := entries.foldl (fun d (p, e) => d.write p e) {}

end Disk

end IdlWorkbench
