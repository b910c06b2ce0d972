import MacroAssembler.Instruction.Table
import MacroAssembler.Source.Comment

/-!
# Source files

A source file is a list of lines, and a line is a list of statements with backslashes between.  A
statement keeps its macros until a pass first executes it.  What the macros expand to is then
spliced in: it may hold several statements, which take the place of the one that was written, and
it is not expanded again.

A program is read three times.  The *draft* pass finds out which labels and variables there are.
The *final* labels pass then knows every label, and settles their values.  The *assemble* pass
writes the output.  The labels passes leave with each instruction the row of the instruction table
that they found for it, for the assembling pass to use.
-/

namespace MacroAssembler

/-- One of the passes over a program. -/
inductive PassKind where
  | draft
  | final
  | assemble
  deriving DecidableEq, Repr

/-- Whether the pass only works out labels and writes no output. -/
def PassKind.isLabels (kind : PassKind) : Bool :=
  kind != .assemble

/-- A statement of a source file: its line and its number in the line, counted from zero. -/
structure Position where
  line : Nat
  statement : Nat
  deriving DecidableEq, Repr

/-- The row of the instruction table that a pass found for a statement with some operands. -/
structure FoundRow where
  pass : PassKind
  operands : Text
  found : Match
  deriving DecidableEq, Repr

/-- A statement of a source file. -/
structure Statement where
  text : Text
  /-- Whether it starts a line, without a blank in front of it. -/
  column0 : Bool
  /-- Whether its macros have been expanded. -/
  expanded : Bool := false
  row : Option FoundRow := none
  deriving DecidableEq, Repr

/-- A source file: its path, and the statements of each line. -/
structure SourceFile where
  path : Text
  lines : Array (List Statement)
  deriving Inhabited

namespace Source

/-- The statements of a line without comments.  Blank ones do not count. -/
def statements (line : Text) : List Statement :=
  let column0 := !line.head?.all isBlank
  let parts := (Text.splitTopLevel '\\' line).zipIdx
  (parts.filter fun (part, _) => !(Text.trim part).isEmpty).map fun (part, n) =>
    { text := Text.trimEnd part, column0 := column0 && n == 0 }

/-- The statements that an expanded text stands for, blank ones included. -/
def expandedStatements (column0 : Bool) (text : Text) : List Statement :=
  (Text.splitTopLevel '\\' text).zipIdx.map fun (part, n) =>
    { text := Text.trimEnd part, column0 := column0 && n == 0, expanded := true }

end Source

namespace SourceFile

/-- The source file with some text. -/
def ofText (path text : Text) : SourceFile :=
  ⟨path, ((Source.stripComments text).map Source.statements).toArray⟩

/-- The statement at a position. -/
def statement? (file : SourceFile) (pos : Position) : Option Statement :=
  (file.lines[pos.line]?).bind (·[pos.statement]?)

/-- The file with the statement at a position changed. -/
def modifyStatement (file : SourceFile) (pos : Position) (f : Statement → Statement) :
    SourceFile :=
  { file with lines := file.lines.modify pos.line (·.modify pos.statement f) }

/-- The file with the statement at a position replaced by the ones that an expanded text stands
for.  The first of them starts the line if the replaced one did. -/
def splice (file : SourceFile) (pos : Position) (text : Text) : SourceFile :=
  { file with lines := file.lines.modify pos.line fun old =>
      let column0 := (old[pos.statement]?).any Statement.column0
      old.take pos.statement ++ Source.expandedStatements column0 text ++
        old.drop (pos.statement + 1) }

/-- The file without the rows that passes have found. -/
def clearRows (file : SourceFile) : SourceFile :=
  { file with lines := file.lines.map (·.map fun s => { s with row := none }) }

end SourceFile

end MacroAssembler
