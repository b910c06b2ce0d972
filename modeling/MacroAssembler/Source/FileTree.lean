import MacroAssembler.Source.Disk

/-!
# A disk in memory

A working directory with the files below it.  A path is followed segment by segment, and every
segment but the last one has to be a directory; so does the last one when a slash follows it.
Outside of the working directory there is nothing.
-/

namespace MacroAssembler

/-- Files by the names of the directories on the way to them, and their own name. -/
structure FileTree where
  files : List (List Text × List UInt8) := []

namespace FileTree

variable (tree : FileTree)

/-- Whether a place is a directory. -/
def isDirectory (place : List Text) : Bool :=
  place.isEmpty || tree.files.any fun (file, _) => place.isPrefixOf file && file != place

/-- The place one segment further. -/
def follow (place : List Text) (segment : Text) : Option (List Text) :=
  if !tree.isDirectory place then none
  else if segment = [] ∨ segment = ['.'] then some place
  else if segment = ['.', '.'] then if place.isEmpty then none else some place.dropLast
  else some (place ++ [segment])

/-- The place that a path leads to, whether there is something or not. -/
def place? (path : Text) : Option (List Text) :=
  if path = [] ∨ path.head? = some '/' then none
  else (Text.splitOn '/' path).foldlM tree.follow []

/-- The bytes of the file at a path. -/
def read? (path : Text) : Option (List UInt8) :=
  (tree.place? path).bind fun place => tree.files.lookup place

/-- The tree with a file at a place. -/
def insert (place : List Text) (bytes : List UInt8) : FileTree :=
  ⟨(place, bytes) :: tree.files.filter fun (file, _) => file != place⟩

/-- The tree after a file was written.  The directory must be there. -/
def write? (path : Text) (bytes : List UInt8) : Option FileTree :=
  (tree.place? path).bind fun place =>
    if tree.isDirectory place then none else some (tree.insert place bytes)

/-- The tree with a file at a path, and the directories on the way to it. -/
def add (path : Text) (bytes : List UInt8) : FileTree :=
  tree.insert ((Text.splitOn '/' path).filter fun segment => segment ≠ [] ∧ segment ≠ ['.']) bytes

/-- The tree as a disk to read from. -/
def disk : Disk where
  entry path :=
    match tree.read? path with
    | some bytes => .file bytes
    | none => .missing

end FileTree

end MacroAssembler
