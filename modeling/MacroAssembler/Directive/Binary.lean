import MacroAssembler.Directive.Name
import MacroAssembler.Pass.Evaluate

/-!
# Files read as bytes

A file can be put into the output, or opened under a name and read number by number into labels.
-/

namespace MacroAssembler

namespace PassM

/-- The path of the file that an argument names. -/
def resolvePath (arg : Text) : PassM Text := do
  let st ← get
  ofExcept .file (st.store.resolve (Text.unquoted arg) st.file)

/-- The bytes of the file at a path. -/
def readBinary (path : Text) : PassM (List UInt8) :=
  onStore (SourceStore.binary path)

end PassM

/-- The number that bytes stand for, the lowest first. -/
def ofLeBytes : List UInt8 → Nat
  | [] => 0
  | byte :: rest => byte.toNat + 256 * ofLeBytes rest

namespace BinaryDirective

open PassM

/-- Puts a stretch of a file into the output, as far as the file goes. -/
def insertFile (pathArg : Text) (startArg lengthArg : Option Text) : PassM Unit := do
  let path ← resolvePath pathArg
  let start ← (startArg.mapM evalAddress : PassM (Option Nat))
  let length ← (lengthArg.mapM evalAddress : PassM (Option Nat))
  let data := (← readBinary path).drop (start.getD 0)
  emit (match length with
    | some length => data.take length
    | none => data)

/-- The open file with a name. -/
def handle (name : Text) : PassM FileHandle := do
  match (← get).handles.lookup name with
  | some handle => return handle
  | none => misuse (.noOpenFile name)

/-- Changes the open file with a name. -/
def setHandle (name : Text) (handle : FileHandle) : PassM Unit :=
  modify fun st => { st with handles := st.handles.put name handle }

/-- Reads a number of some bytes into a label. -/
def readInto (name label : Text) (widthArg : Option Text) : PassM Unit := do
  let width ←
    match widthArg with
    | some arg => evalAddress arg
    | none => pure 1
  if width < 1 ∨ 8 < width then misuse (.badReadWidth width)
  else
    let file ← handle name
    let bytes := ((← readBinary file.path).drop file.position).take width
    if bytes.length < width then misuse (.readPastEnd file.path)
    else
      setHandle name { file with position := file.position + width }
      let _ ← defineConstant label (Float.ofNat (ofLeBytes bytes)) 0

/-- Executes a directive that reads a file as bytes. -/
def run (d : BinaryDirective) (name rest : Text) : PassM Unit :=
  let args := Text.arguments rest
  match d, args with
  | .insert, path :: more =>
    if 2 < more.length then misuse (.argumentCount name 1 3 args.length)
    else insertFile path more[0]? more[1]?
  | .insert, [] => misuse (.argumentCount name 1 3 0)
  | .openFile, [handle, pathArg] => do
    let path ← resolvePath pathArg
    -- a file that is not there is noticed here, and not at the first read
    let _ ← readBinary path
    setHandle handle ⟨path, 0⟩
  | .readNumber, [handle, label] => readInto handle label none
  | .readNumber, [handle, label, width] => readInto handle label (some width)
  | .readNumber, _ => misuse (.argumentCount name 2 3 args.length)
  | .seek, [handleName, offsetArg] => do
    let offset ← evalAddress offsetArg
    let file ← handle handleName
    setHandle handleName { file with position := offset }
  | .size, [handleName, label] => do
    let file ← handle handleName
    let data ← readBinary file.path
    let _ ← defineConstant label (Float.ofNat data.length) 0
  | .openFile, _ | .seek, _ | .size, _ => misuse (.argumentCount name 2 2 args.length)
  | .close, [handleName] => do
    let _ ← handle handleName
    modify fun st => { st with handles := st.handles.remove handleName }
  | .close, _ => misuse (.argumentCount name 1 1 args.length)

end BinaryDirective

end MacroAssembler
