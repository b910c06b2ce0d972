import MacroAssembler.Assembly
import MacroAssembler.Source.FileTree

/-!
# The command line

The arguments are the source, then the file for the binary and the file for the exported labels,
which may be left out.  Options stand anywhere before a double dash.  An option may be given once,
but for the directories of includes and for the wish for more output.

The program itself is a function of the arguments and of a disk.  Its outcome says which files are
to be written; or which file has to be read before the outcome is known.
-/

namespace MacroAssembler

namespace CommandLine

/-! ## Arguments -/

/-- What the arguments ask for. -/
structure Request where
  /-- The source, the binary output and the exported labels. -/
  paths : List Text := []
  caseSensitive : Bool := false
  strict : Bool := false
  table : Option Text := none
  includeDirs : List Text := []
  seed : Option Nat := none
  deriving DecidableEq, Repr

/-- Why the arguments do not lead to an assembly. -/
inductive Refusal where
  /-- The user asks how the program is called, or for its version. -/
  | help
  | wrongArguments
  deriving DecidableEq, Repr

/-- The status of the program when there is no assembly. -/
def Refusal.status : Refusal → Nat
  | .help => 0
  | .wrongArguments => 2

/-- How the program is called. -/
def usage : List String :=
  ["usage: [options] SOURCE [BINARY [EXPORTS]]",
   "  --case-sensitive     names that differ in case are different",
   "  --strict             stop at the first error",
   "  --table FILE         the instruction table, instead of the one for the Z80",
   "  -I, --include DIR    another directory to look for files in",
   "  --seed NUMBER        where the random numbers start",
   "  -v, --verbose        more output",
   "  -h, --help, -V, --version   this text"]

/-- An option that takes a value. -/
inductive ValueOption where
  | table
  | includeDir
  | seed
  deriving DecidableEq, Repr

/-- An option. -/
inductive OptionKind where
  | caseSensitive
  | strict
  | verbose
  | help
  | value (o : ValueOption)
  deriving DecidableEq, Repr

/-- The names of the options. -/
def optionNames : Index OptionKind :=
  [("case-sensitive".toList, .caseSensitive), ("strict".toList, .strict),
   ("verbose".toList, .verbose), ("help".toList, .help), ("version".toList, .help),
   ("table".toList, .value .table), ("include".toList, .value .includeDir),
   ("seed".toList, .value .seed)]

/-- The options of one letter. -/
def optionLetters : List (Char × OptionKind) :=
  [('I', .value .includeDir), ('v', .verbose), ('h', .help), ('V', .help)]

namespace Request

variable (r : Request)

/-- The request with a path. -/
def addPath (path : Text) : Except Refusal Request :=
  if path.isEmpty ∨ 3 ≤ r.paths.length then .error .wrongArguments
  else .ok { r with paths := r.paths ++ [path] }

/-- The request with an option that takes no value. -/
def addFlag : OptionKind → Except Refusal Request
  | .caseSensitive =>
    if r.caseSensitive then .error .wrongArguments else .ok { r with caseSensitive := true }
  | .strict => if r.strict then .error .wrongArguments else .ok { r with strict := true }
  | .verbose => .ok r
  | .help => .error .help
  | .value _ => .error .wrongArguments

/-- The request with an option and its value. -/
def addValue (o : ValueOption) (value : Text) : Except Refusal Request :=
  match o with
  | .table =>
    if value.isEmpty ∨ r.table.isSome then .error .wrongArguments
    else .ok { r with table := some value }
  | .includeDir =>
    if value.isEmpty then .error .wrongArguments
    else .ok { r with includeDirs := r.includeDirs ++ [value] }
  | .seed =>
    match r.seed, readUnsigned 10 (Nat.pow 2 64) value with
    | none, some seed => .ok { r with seed := some seed }
    | _, _ => .error .wrongArguments

end Request

/-- Whether an argument can not be the value of an option in front of it. -/
def looksLikeOption (arg : Text) : Bool :=
  arg.head? = some '-' && 1 < arg.length

/-- Reads the letters behind a dash.  The result also tells whether the last of them still needs a
value. -/
def readLetters (r : Request) : Text → Except Refusal (Request × Option ValueOption)
  | [] => .ok (r, none)
  | letter :: rest =>
    match optionLetters.lookup letter with
    | none => .error .wrongArguments
    | some (.value o) =>
      if rest.isEmpty then .ok (r, some o)
      else (r.addValue o ((Text.after? ['='] rest).getD rest)).map (·, none)
    | some flag => do readLetters (← r.addFlag flag) rest

/-- Reads the name of an option, and the value that may be joined to it. -/
def readName (r : Request) (text : Text) : Except Refusal (Request × Option ValueOption) :=
  let (name, value) :=
    match Text.splitAtFirst '=' text with
    | some (name, value) => (name, some value)
    | none => (text, none)
  match optionNames.lookup name, value with
  | none, _ => .error .wrongArguments
  | some (.value o), some value => (r.addValue o value).map (·, none)
  | some (.value o), none => .ok (r, some o)
  | some flag, none => (r.addFlag flag).map (·, none)
  | some _, some _ => .error .wrongArguments

/-- Reads the arguments behind a double dash. -/
def readPaths (r : Request) (args : List Text) : Except Refusal Request :=
  args.foldlM Request.addPath r

/-- Reads arguments.  `waiting` is the option in front of them that still needs its value. -/
def readFrom (r : Request) (waiting : Option ValueOption) : List Text → Except Refusal Request
  | [] => if waiting.isSome then .error .wrongArguments else .ok r
  | arg :: rest =>
    match waiting with
    | some o =>
      if looksLikeOption arg then .error .wrongArguments
      else do readFrom (← r.addValue o arg) none rest
    | none =>
      if arg = ['-', '-'] then readPaths r rest
      else do
        let (r, waiting) ←
          match Text.after? ['-', '-'] arg with
          | some text => readName r text
          | none =>
            if looksLikeOption arg then readLetters r (arg.drop 1)
            else (r.addPath arg).map (·, none)
        readFrom r waiting rest

/-- Reads the arguments of the program.  There must be a source. -/
def read (args : List Text) : Except Refusal Request := do
  let r ← readFrom {} none args
  if r.paths.isEmpty then throw .wrongArguments else return r

/-! ## Outcome -/

/-- What the program does in the end. -/
inductive Outcome where
  /-- Ends with a status and some lines for the user. -/
  | exit (status : Nat) (lines : List String)
  /-- Writes files, in this order. -/
  | write (files : List (Text × List UInt8)) (lines : List String)
  /-- A file has to be read first. -/
  | unread (path : Text)

/-- The line for an exported label: an address in hexadecimal, any other value as it is. -/
def exportLine (name : Text) (value : Float) : String :=
  let text :=
    if 0 ≤ value && Value.isWhole value then s!"${hexInt (Value.toWord value)}"
    else String.ofList (Value.toText value)
  s!"{String.ofList name} .equ {text}\n"

/-- The text of the exported labels. -/
def exportText (output : Output) : String :=
  String.join (output.exports.map fun (name, value) => exportLine name value)

/-- The outcome of a fault. -/
def Outcome.ofFault (fault : Fault) (lines : List String) : Outcome :=
  match fault with
  | .file (.unread path) | .table (.unreadable (.unread path)) => .unread path
  | fault => .exit 1 (lines ++ [fault.message])

/-- The instruction table that a request names. -/
def loadTable (disk : Disk) (path : Text) : Except Fault InstructionSet :=
  match disk.readText path with
  | .error e => .error (.table (.unreadable e))
  | .ok text => (InstructionSet.ofText text).mapError .table

/-- Assembles what a request asks for. -/
def perform (random : RandomSource) (disk : Disk) (r : Request) : Outcome :=
  let settings : Settings :=
    { caseSensitive := r.caseSensitive, strict := r.strict, includeDirs := r.includeDirs,
      seed := r.seed }
  let table :=
    match r.table with
    | some path => loadTable disk path
    | none => .ok Z80.instructionSet
  match table with
  | .error fault => .ofFault fault []
  | .ok table =>
    let lines (a : Assembler) := a.diagnostics.entries.toList.map Diagnostic.render
    let a := { Assembler.new settings table disk with random := random }
    match (Assembler.assemble (r.paths.headD [])).run a with
    | .error fault a => .ofFault fault (lines a)
    | .ok output a =>
      let texts := [output.binary, Disk.encodeText (exportText output).toList]
      .write ((r.paths.drop 1).zip texts) (lines a)

/-- The program. -/
def run (random : RandomSource) (disk : Disk) (args : List Text) : Outcome :=
  match read args with
  | .error refusal => .exit refusal.status usage
  | .ok r => perform random disk r

/-! ## On a disk in memory -/

/-- Writes files until one can not be written: the status, and the tree afterwards. -/
def writeAll (tree : FileTree) : List (Text × List UInt8) → Nat × FileTree
  | [] => (0, tree)
  | (path, bytes) :: rest =>
    match tree.write? path bytes with
    | some tree => writeAll tree rest
    | none => (1, tree)

/-- Runs the program in a directory: its status, and the directory afterwards. -/
def runIn (tree : FileTree) (args : List Text) : Nat × FileTree :=
  match run {} tree.disk args with
  | .exit status _ => (status, tree)
  | .write files _ => writeAll tree files
  | .unread _ => (1, tree)

end CommandLine

end MacroAssembler
