/-!
# Where files can be written

A file tree says which paths lead to directories and which to files.  A path is followed one part
after the other, and a file can be written at its end if everything before the end is a directory
and the end is none.
-/

namespace NoisyCover

inductive TreeEntry where
  | directory
  | file
  deriving DecidableEq, Repr

/-- A tree of directories and files; a position in it is the list of the names from the root on. -/
structure FileTree where
  /-- The position that relative paths start from. -/
  workplace : List String
  /-- What is at which position; the root is always a directory. -/
  entries : List (List String × TreeEntry)

inductive WriteFault where
  /-- A directory on the way does not exist. -/
  | missing
  /-- A file is on the way. -/
  | notADirectory
  /-- A directory is at the end. -/
  | isADirectory
  | nameTooLong
  /-- The path has a null character. -/
  | nullCharacter
  deriving DecidableEq, Repr

namespace FileTree

/-- The longest name, in bytes. -/
def longestName : Nat := 255

/-- The longest path, in bytes. -/
def longestPath : Nat := 4095

def entry? (t : FileTree) (position : List String) : Option TreeEntry :=
  if position.isEmpty then some .directory else t.entries.lookup position

/-- The position one part of a path further on. -/
def step (position : List String) (part : String) : List String :=
  if part = "." then position else if part = ".." then position.dropLast else position ++ [part]

/-- Follows the parts of a path to a place where a file can be written. -/
def follow (t : FileTree) : (position : List String) → (parts : List String) →
    Except WriteFault (List String)
  | position, [] =>
    if t.entry? position = some .directory then .error .isADirectory else .ok position
  | position, part :: rest =>
    match t.entry? position with
    | none => .error .missing
    | some .file => .error .notADirectory
    | some .directory =>
      if longestName < part.utf8ByteSize then .error .nameTooLong
      else t.follow (step position part) rest

/-- The position at which a file is written by its path. -/
def place (t : FileTree) (path : String) : Except WriteFault (List String) :=
  if path.contains '\x00' then .error .nullCharacter
  else if longestPath < path.utf8ByteSize then .error .nameTooLong
  else
    t.follow (if path.startsWith "/" then [] else t.workplace)
      ((path.splitOn "/").filter (fun part => part != ""))

end FileTree

end NoisyCover
