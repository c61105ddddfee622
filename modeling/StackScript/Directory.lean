/-!
# The working directory of the command line

The command line reads a script by its path, from the working directory or, when the path starts
with `/`, from the root.  The working directory holds files, each named by a relative path whose
parts are separated by `/`, and a directory stands wherever a file's path passes through one.
Above the working directory nothing is known but that each step up is a directory, and the root
is its own parent.

A path is read part by part (`Directory.read`), as the operating system reads one: an empty part
and `.` stay where they are, `..` goes one directory up, and a name goes down into the directory
it names.  Any part after a file fails with `notDirectory`, so `a.fe/` and `a.fe/..` do; a name
longer than `maxNameBytes` fails with `nameTooLong`, and one that is not there with `notFound`;
and a path that ends at a directory opens but cannot be read, which is `isDirectory`.  The empty
path names nothing, and a path of `maxPathBytes` bytes or more is too long before any part of it
is read.
-/

namespace StackScript

/-- Why a file cannot be read. -/
inductive ReadError where
  | notFound
  | isDirectory
  | notDirectory
  | nameTooLong
deriving Repr, DecidableEq, Inhabited

/-- The operating system's words for why a file cannot be read. -/
def ReadError.message : ReadError → String
  | .notFound => "No such file or directory (os error 2)"
  | .isDirectory => "Is a directory (os error 21)"
  | .notDirectory => "Not a directory (os error 20)"
  | .nameTooLong => "File name too long (os error 36)"

/-- The bytes a path may not reach: the limit counts the zero byte that ends a path. -/
def maxPathBytes : Nat := 4096

/-- The most bytes of one name in a path. -/
def maxNameBytes : Nat := 255

/-- Where the parts of a path read so far lead. -/
inductive Place where
  /-- A directory at or below the working directory, by the names that lead there. -/
  | below (names : List String)
  /-- A directory above the working directory, or the root: none of its entries is known. -/
  | above
  /-- A file, with its text. -/
  | file (text : String)
deriving Repr, DecidableEq, Inhabited

/-- The files of a working directory, each with its path and its text. -/
structure Directory where
  files : List (String × String)
deriving Repr, Inhabited

namespace Directory

/-- The names that lead from the working directory to a file, its own name last. -/
def names (path : String) : List String :=
  (path.splitOn "/").filter fun p => !(p.isEmpty || p == ".")

/-- What a name inside the directory reached by `dir` is: a file, a directory that some file's
path passes through, or nothing. -/
def lookup (d : Directory) (dir : List String) (name : String) : Option Place :=
  let here := dir ++ [name]
  match d.files.find? (fun f => names f.1 == here) with
  | some f => some (.file f.2)
  | none => if d.files.any (fun f => here.isPrefixOf (names f.1)) then some (.below here) else none

/-- Read one part of a path from where the parts before it lead. -/
def step (d : Directory) : Place → String → Except ReadError Place
  | .file _, _ => .error .notDirectory
  | p, "" => .ok p
  | p, "." => .ok p
  | .above, ".." => .ok .above
  | .below dir, ".." => .ok (if dir.isEmpty then .above else .below dir.dropLast)
  | .above, name => .error (if maxNameBytes < name.utf8ByteSize then .nameTooLong else .notFound)
  | .below dir, name =>
    if maxNameBytes < name.utf8ByteSize then .error .nameTooLong
    else
      match d.lookup dir name with
      | some p => .ok p
      | none => .error .notFound

/-- The text of the file a path names, or why it cannot be read. -/
def read (d : Directory) (path : String) : Except ReadError String :=
  if path.isEmpty then .error .notFound
  else if maxPathBytes ≤ path.utf8ByteSize then .error .nameTooLong
  else
    let start := if path.startsWith "/" then Place.above else .below []
    match (path.splitOn "/").foldlM d.step start with
    | .ok (.file text) => .ok text
    | .ok _ => .error .isDirectory
    | .error e => .error e

end Directory

end StackScript
