import MacroAssembler.Conditional
import MacroAssembler.Expr.Error
import MacroAssembler.Instruction.TableText
import MacroAssembler.Macro.Table
import MacroAssembler.Output.Page

/-!
# What can go wrong in a pass

A fault stops the statement that causes it.  Most faults are reported and the pass goes on with
the next statement; a fatal one ends the assembly.
-/

namespace MacroAssembler

/-- How deep files may include each other. -/
def maxIncludes : Nat := 64

/-- After how many rounds a loop is taken to be endless. -/
def maxIterations : Nat := 1000000

/-- The most entries a generated table may have. -/
def maxTableEntries : Nat := 0x10000

/-- A directive that is used in a way it does not allow. -/
inductive DirectiveError where
  | conditional (cause : ConditionalError)
  | noCondition (name : Text)
  | noName
  | outOfRange (value : Int)
  | endmoduleOutside
  | argumentCount (name : Text) (min max found : Nat)
  | unknown (name : Text)
  | equWithoutLabel
  | badAlignment (boundary : Int)
  | doesNotFit (value : Int) (width : Nat)
  | noValue (name : Text)
  | badCount (count : Int)
  | emptyRange (min max : Int)
  | zeroAngles
  | endlessStep (step stop start : Float)
  | tableTooLong
  | badCharRange (first last : Int)
  | bodyOnHeader (name : Text)
  | enddeflongOutside
  | noMacroName (name : Text)
  | includesTooDeep
  | noOpenFile (name : Text)
  | badReadWidth (width : Nat)
  | readPastEnd (path : Text)
  | zeroStep
  | loopOutside
  | loopInOtherFile
  | endlessLoop
  | raised (message : String)
  | notASwitch (name : Text) (found : Text)
  | modulePath (name : Text)
  | noModule
  | unknownModule (name : Text)
  | noExport
  | relocateInside
  | endrelocateOutside
  | structInside (name : Text)
  | endstructOutside
  | temporaryMember
  | duplicateMember (struct : Text) (name : Text)
  | variableWithoutSize (name : Text)
  | neverAllocated (name : Text)
  | phase (name : Text) (before now : Int)

/-- A 64-bit integer in hexadecimal, at least four digits wide. -/
def hexInt (n : Int) : String :=
  hexWord (n % Int.pow 2 64).toNat

/-- The text shown for a misuse. -/
def DirectiveError.message : DirectiveError → String
  | .conditional cause => cause.message
  | .noCondition name => s!".{String.ofList name} without a condition"
  | .noName => "missing name"
  | .outOfRange value => s!"{value} out of range"
  | .endmoduleOutside => "endmodule without module"
  | .argumentCount name min max found =>
    let expected := if min = max then s!"{min}" else s!"{min} to {max}"
    s!".{String.ofList name} expects {expected} argument(s), found {found}"
  | .unknown name => s!"unknown directive '.{String.ofList name}'"
  | .equWithoutLabel => ".equ needs a label"
  | .badAlignment boundary => s!"cannot align to {boundary}"
  | .doesNotFit value width => s!"value {value} does not fit in {width} byte(s)"
  | .noValue name => s!".{String.ofList name} expects at least one value"
  | .badCount count => s!"invalid count {count}"
  | .emptyRange min max => s!"empty range {min} to {max}"
  | .zeroAngles => "a full turn cannot be 0 angles"
  | .endlessStep step stop start =>
    let text (x : Float) := String.ofList (Value.toText x)
    s!"step {text step} never reaches {text stop} from {text start}"
  | .tableTooLong => s!"table longer than {maxTableEntries} entries"
  | .badCharRange first last => s!"invalid character range {first} to {last}"
  | .bodyOnHeader name => s!".deflong {String.ofList name}: the body starts on the next line"
  | .enddeflongOutside => ".enddeflong without .deflong"
  | .noMacroName name => s!".{String.ofList name} expects a macro name"
  | .includesTooDeep => s!"includes nested deeper than {maxIncludes}"
  | .noOpenFile name => s!"no open file '{String.ofList name}'"
  | .badReadWidth width => s!"cannot read {width} byte(s) at once"
  | .readPastEnd path => s!"read past the end of '{String.ofList path}'"
  | .zeroStep => ".for with a step of 0"
  | .loopOutside => ".loop without .for or .repeat"
  | .loopInOtherFile => ".loop must be in the file of its .for"
  | .endlessLoop => s!"loop stopped after {maxIterations} iterations"
  | .raised message => message
  | .notASwitch name found =>
    s!".{String.ofList name} expects on or off, found '{String.ofList found}'"
  | .modulePath name => s!"module name '{String.ofList name}' cannot be a path"
  | .noModule => ".using expects a module"
  | .unknownModule name => s!"unknown module '{String.ofList name}'"
  | .noExport => ".export expects a label"
  | .relocateInside => ".relocate inside .relocate"
  | .endrelocateOutside => ".endrelocate without .relocate"
  | .structInside name => s!".struct inside .struct {String.ofList name}"
  | .endstructOutside => ".endstruct without .struct"
  | .temporaryMember => ".tvar cannot declare a struct member"
  | .duplicateMember struct name =>
    s!"{String.ofList struct} already has a member '{String.ofList name}'"
  | .variableWithoutSize name => s!"variable '{String.ofList name}' has no size"
  | .neverAllocated name => s!"variable '{String.ofList name}' was never allocated"
  | .phase name before now =>
    s!"phase error: '{String.ofList name}' was ${hexInt before} in the labels pass, " ++
      s!"${hexInt now} now"

/-- How the assembling pass found an instruction in another state than the final labels pass left
it in. -/
inductive Desync where
  | neverMatched (mnemonic operands : Text)
  | skipped (mnemonic operands : Text)
  | changed (before now : Text)
  deriving DecidableEq, Repr

/-- What is out of step. -/
def Desync.message : Desync → String
  | .neverMatched mnemonic operands =>
    s!"'{String.ofList mnemonic} {String.ofList operands}' was never matched"
  | .skipped mnemonic operands =>
    s!"'{String.ofList mnemonic} {String.ofList operands}' was skipped by the final labels pass"
  | .changed before now =>
    s!"operands '{String.ofList before}' changed to '{String.ofList now}'"

/-- Anything that can go wrong in a pass. -/
inductive Fault where
  | file (cause : FileError)
  | expr (cause : ExprError)
  | symbol (cause : SymbolError)
  | macroUse (cause : MacroError)
  | table (cause : TableError)
  | encode (cause : EncodeError)
  | page (cause : PageError)
  | directive (cause : DirectiveError)
  | unknownInstruction (word : Text)
  | badOperands (mnemonic operands : Text)
  /-- The passes saw different programs. -/
  | desync (path : Text) (line : Nat) (detail : Desync)
  /-- The assembly ends, errors having been reported. -/
  | aborted (errors : Nat)
  /-- The pass was given too few steps to finish. -/
  | outOfSteps

namespace Fault

/-- The text shown for a fault. -/
def message : Fault → String
  | .file cause => cause.message
  | .expr cause => cause.message
  | .symbol cause => cause.message
  | .macroUse cause => cause.message
  | .table cause => cause.message
  | .encode cause => cause.message
  | .page cause => cause.message
  | .directive cause => cause.message
  | .unknownInstruction word => s!"unknown instruction '{String.ofList word}'"
  | .badOperands mnemonic operands =>
    s!"operands not understood: '{String.ofList mnemonic} {String.ofList operands}'"
  | .desync path line detail =>
    s!"pass desynchronisation at {String.ofList path}:{line}: {detail.message}"
  | .aborted errors => s!"assembly failed with {errors} error(s)"
  | .outOfSteps => "the pass did not finish in the steps it was given"

/-- Whether the fault ends the assembly at once. -/
def isFatal : Fault → Bool
  | .desync _ _ _ | .aborted _ | .outOfSteps | .file (.unread _) => true
  | _ => false

end Fault

end MacroAssembler
