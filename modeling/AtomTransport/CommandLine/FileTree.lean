/-!
# Files

A tree of files, in which paths are followed part by part. A path is absolute if it starts with a
slash; otherwise it starts at the home of the tree. A dot stays where it is, two dots go up, and both
need a directory. A slash at the end asks for a directory.
-/

namespace AtomTransport.CommandLine

inductive Entry where
  | missing
  | directory
  | file (text : String)

inductive PathFault where
  | noEntry
  | notDirectory
  | isDirectory
  | nameTooLong
  deriving DecidableEq

namespace PathFault

def all : List PathFault := [noEntry, notDirectory, isDirectory, nameTooLong]

def code : PathFault → Nat
  | noEntry => 2
  | notDirectory => 20
  | isDirectory => 21
  | nameTooLong => 36

def text : PathFault → String
  | noEntry => "No such file or directory"
  | notDirectory => "Not a directory"
  | isDirectory => "Is a directory"
  | nameTooLong => "File name too long"

def message (f : PathFault) : String := f.text ++ " (os error " ++ toString f.code ++ ")"

end PathFault

structure FileTree where
  files : List (List String × String)
  directories : List (List String)
  home : List String

namespace FileTree

def parts (path : String) : List String := (path.splitOn "/").filter (· ≠ "")

def nameLimit : Nat := 255

def pathLimit : Nat := 4095

/-- The tree of a run: given files in a home of its own below a directory for temporary files, and
the empty device. The home has no name by which a path could enter it. -/
def ofFiles (files : List (String × String)) : FileTree :=
  let home := ["tmp", ""]
  ⟨(["dev", "null"], "") :: files.map fun f => (home ++ (parts f.1).filter (· ≠ "."), f.2),
    [home], home⟩

variable (t : FileTree)

def entryAt (names : List String) : Entry :=
  match t.files.find? (·.1 = names) with
  | some f => .file f.2
  | none =>
    if t.directories.any names.isPrefixOf || t.files.any (names.isPrefixOf ·.1) then .directory
    else .missing

/-- Goes on from a place along the parts of a path. Only the last part may be missing. -/
def follow (place : List String) : List String → Except PathFault (List String)
  | [] => .ok place
  | part :: rest =>
    match t.entryAt place with
    | .missing => .error .noEntry
    | .file _ => .error .notDirectory
    | .directory =>
      if part = "." then follow place rest
      else if part = ".." then follow place.dropLast rest
      else if nameLimit < part.utf8ByteSize then .error .nameTooLong
      else follow (place ++ [part]) rest

def locate (path : String) (ps : List String) : Except PathFault (List String) :=
  if path = "" then .error .noEntry
  else if pathLimit < path.utf8ByteSize then .error .nameTooLong
  else t.follow (if path.startsWith "/" then [] else t.home) ps

def place (path : String) : Except PathFault (List String) :=
  t.locate path (if path.endsWith "/" then parts path ++ ["."] else parts path)

def entry (path : String) : Entry :=
  match t.place path with
  | .ok names => t.entryAt names
  | .error _ => .missing

/-- The reason why a file cannot be written. A slash at the end names no file, whatever is there. -/
def writeFault? (path : String) : Option PathFault :=
  let found := if path.endsWith "/" then t.locate path ((parts path).dropLast ++ ["."])
    else t.place path
  match found with
  | .error e => some e
  | .ok names =>
    match t.entryAt names with
    | .directory => some .isDirectory
    | _ => none

def added? (path : String) : Option String :=
  match t.place path with
  | .error _ => none
  | .ok names =>
    match t.entryAt names with
    | .missing =>
      if t.home.isPrefixOf names then some ("/".intercalate (names.drop t.home.length)) else none
    | _ => none

end FileTree

end AtomTransport.CommandLine
