import MacroAssembler.Text.Basic

/-!
# Files

A file is reached by a path, a sequence of parts with slashes between.  Two paths are taken for the
same file when their parts are equal; doubled slashes, a final slash and inner `.` parts do not
count, but `..` is not worked out.

The contents of files come from outside of the assembly.  A `Disk` answers for every path what is
there.  It may also answer that the path was not looked at yet: the assembly then stops, and can be
run again on a disk that knows more.
-/

namespace MacroAssembler

namespace Path

/-- A part of a path. -/
inductive Part where
  | root
  | current
  | parent
  | name (text : Text)
  deriving DecidableEq, Repr

/-- The part that a piece between slashes stands for, if it counts. -/
def partOf (segment : Text) : Option Part :=
  if segment = [] ∨ segment = ['.'] then none
  else if segment = ['.', '.'] then some .parent
  else some (.name segment)

/-- The parts of a path.  A `.` counts at the very start only. -/
def parts (path : Text) : List Part :=
  match Text.splitOn '/' path with
  | [] => []
  | first :: rest =>
    let lead :=
      if path.head? = some '/' then [Part.root]
      else if first = ['.'] then [.current]
      else (partOf first).toList
    lead ++ rest.filterMap partOf

/-- Whether two paths are taken for the same file. -/
def same (a b : Text) : Bool :=
  parts a == parts b

/-- The path of a file in a directory; an absolute path stays as it is. -/
def join (dir name : Text) : Text :=
  if name.head? = some '/' then name
  else if dir.isEmpty || dir.getLast? = some '/' then dir ++ name
  else dir ++ '/' :: name

/-- The segments without those at the end that do not count.  The first segment of a relative
path counts even if it is a `.`. -/
def trimSegments (isRelative : Bool) (segments : List Text) : List Text :=
  let counts (n : Nat) (segment : Text) : Bool :=
    (partOf segment).isSome || (n == 0 && isRelative && segment == ['.'])
  let n := ((List.range segments.length).reverse.find? fun n => (segments[n]?).any (counts n))
  segments.take ((n.map (· + 1)).getD 0)

/-- The directory that a path lies in. -/
def parent? (path : Text) : Option Text :=
  let isRelative := path.head? != some '/'
  let segments := Text.splitOn '/' (if isRelative then path else path.drop 1)
  match trimSegments isRelative segments with
  | [] => none
  | counted =>
    let dir := ['/'].intercalate (trimSegments isRelative counted.dropLast)
    some (if isRelative then dir else '/' :: dir)

end Path

/-- A failure to read a file. -/
inductive FileError where
  | missing (path : Text)
  /-- The file is not text. -/
  | notText (path : Text)
  /-- The disk does not know yet what is there. -/
  | unread (path : Text)
  deriving DecidableEq, Repr

namespace FileError

/-- The path that could not be read. -/
def path : FileError → Text
  | .missing path | .notText path | .unread path => path

/-- Why it could not be read. -/
def reason : FileError → String
  | .missing _ => "No such file or directory (os error 2)"
  | .notText _ => "stream did not contain valid UTF-8"
  | .unread _ => "not looked at yet"

/-- The text shown for a failure. -/
def message (e : FileError) : String :=
  s!"unable to read '{String.ofList e.path}': {e.reason}"

end FileError

/-- What is found at a path. -/
inductive DiskEntry where
  | file (bytes : List UInt8)
  | missing
  | unread

/-- What is found at every path. -/
structure Disk where
  entry : Text → DiskEntry

namespace Disk

/-- The disk with no file on it. -/
def empty : Disk :=
  ⟨fun _ => .missing⟩

/-- Whether there is a file at a path. -/
def isFile (disk : Disk) (path : Text) : Except FileError Bool :=
  match disk.entry path with
  | .file _ => .ok true
  | .missing => .ok false
  | .unread => .error (.unread path)

/-- The bytes of the file at a path. -/
def readBytes (disk : Disk) (path : Text) : Except FileError (List UInt8) :=
  match disk.entry path with
  | .file bytes => .ok bytes
  | .missing => .error (.missing path)
  | .unread => .error (.unread path)

/-- The text that some bytes encode. -/
def decodeText (bytes : List UInt8) : Option Text :=
  (String.fromUTF8? ⟨bytes.toArray⟩).map String.toList

/-- The bytes that encode a text. -/
def encodeText (text : Text) : List UInt8 :=
  (String.ofList text).toUTF8.toList

/-- The text of the file at a path. -/
def readText (disk : Disk) (path : Text) : Except FileError Text := do
  match decodeText (← disk.readBytes path) with
  | some text => return text
  | none => throw (.notText path)

end Disk

end MacroAssembler
