import MacroAssembler.Source.Disk
import MacroAssembler.Source.File

/-!
# The files of an assembly

The store holds every file that an assembly touches.  Sources are cut into statements when they are
first loaded and keep their numbers and their expanded statements from then on; other files are
read once.  Files given in memory are found before those on disk.
-/

namespace MacroAssembler

/-- Files that were given, read or loaded. -/
structure SourceStore where
  files : Array SourceFile := #[]
  /-- Texts given in memory, by path. -/
  memory : List (Text × Text) := []
  /-- Files read as bytes, by path. -/
  binaries : List (Text × List UInt8) := []
  includeDirs : List Text := []
  disk : Disk := Disk.empty

/-- A use of the store that may fail to read a file. -/
abbrev StoreM := EStateM FileError SourceStore

namespace SourceStore

/-- What is filed under a path. -/
def atPath {α : Type} (entries : List (Text × α)) (path : Text) : Option α :=
  (entries.find? fun (key, _) => Path.same key path).map Prod.snd

/-- Gives a text in memory; it takes the place of an earlier one. -/
def addMemory (store : SourceStore) (path text : Text) : SourceStore :=
  { store with
    memory := (path, text) :: store.memory.filter fun (key, _) => !Path.same key path }

/-- Whether there is a file at a path. -/
def isFile (store : SourceStore) (path : Text) : Except FileError Bool :=
  if (atPath store.memory path).isSome then .ok true else store.disk.isFile path

/-- The number of the loaded file with a path. -/
def loaded? (store : SourceStore) (path : Text) : Option Nat :=
  store.files.findIdx? fun file => Path.same file.path path

/-- The first of some paths at which there is a file. -/
def firstFile (store : SourceStore) : List Text → Except FileError (Option Text)
  | [] => .ok none
  | path :: rest => do if ← store.isFile path then return some path else store.firstFile rest

/-- The path of a file that a source names: next to the file that names it, else as it stands,
else in one of the include directories. -/
def resolve (store : SourceStore) (name : Text) (including : Option Nat) :
    Except FileError Text := do
  let beside := ((including.bind (store.files[·]?)).bind fun file => Path.parent? file.path).map
    (Path.join · name)
  let candidates := beside.toList ++ name :: store.includeDirs.map (Path.join · name)
  return (← store.firstFile candidates).getD name

/-- Loads a source file, once: its number. -/
def load (path : Text) : StoreM Nat := do
  let store ← get
  match store.loaded? path with
  | some id => return id
  | none =>
    let text ←
      match atPath store.memory path with
      | some text => pure text
      | none =>
        match store.disk.readText path with
        | .ok text => pure text
        | .error e => throw e
    set { store with files := store.files.push (SourceFile.ofText path text) }
    return store.files.size

/-- Reads a file as bytes, once. -/
def binary (path : Text) : StoreM (List UInt8) := do
  let store ← get
  match atPath store.binaries path with
  | some bytes => return bytes
  | none =>
    let bytes ←
      match atPath store.memory path with
      | some text => pure (Disk.encodeText text)
      | none =>
        match store.disk.readBytes path with
        | .ok bytes => pure bytes
        | .error e => throw e
    set { store with binaries := (path, bytes) :: store.binaries }
    return bytes

/-- The source file with a number. -/
def file (store : SourceStore) (id : Nat) : SourceFile :=
  store.files.getD id default

/-- The store with a source file changed. -/
def modifyFile (store : SourceStore) (id : Nat) (f : SourceFile → SourceFile) : SourceStore :=
  { store with files := store.files.modify id f }

/-- The store without the rows that passes have found, so that a new assembly can not use stale
ones. -/
def clearRows (store : SourceStore) : SourceStore :=
  { store with files := store.files.map SourceFile.clearRows }

/-- The paths of the loaded files, in the order of their numbers. -/
def paths (store : SourceStore) : List Text :=
  store.files.toList.map SourceFile.path

end SourceStore

end MacroAssembler
