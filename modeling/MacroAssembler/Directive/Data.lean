import MacroAssembler.Directive.Name
import MacroAssembler.Pass.Evaluate

/-!
# Bytes in the output

The labels passes only count the bytes.  So that addresses stay in step, the assembling pass puts
as many bytes into the output for an argument that fails as for one that does not; the fault is
raised when all arguments have been dealt with.
-/

namespace MacroAssembler

/-- The bytes of an integer, the lowest first. -/
def intBytes (value : Int) (width : Nat) : List UInt8 :=
  ((DataType.int width false).bytes (Value.ofInt value)).getD []

namespace PassM

/-- Checks that an integer fits, as a signed or as an unsigned one.  One that does not is
truncated with a warning, or refused in a strict assembly. -/
def checkRange (value : Int) (width : Nat) : PassM Unit := do
  if (DataType.int width false).fits (Value.ofInt value) then return
  else
    let cause := DirectiveError.doesNotFit value width
    if (← read).strict then misuse cause
    else report .warning (cause.message ++ ", truncated")

/-- The value of an argument that counts something. -/
def evalCount (arg : Text) : PassM Nat := do
  let count ← evalInt arg
  if 0 ≤ count ∧ count < addressSpace then return count.toNat
  else misuse (.badCount count)

end PassM

namespace DataDirective

open PassM

/-- What an argument puts into the output, and the fault that kept it from having a value. -/
structure Emitted where
  bytes : List UInt8
  fault : Option Fault := none

/-- What an argument of a list of integers gives: a string gives one integer for each
character. -/
def integer (width : Nat) (arg : Text) : PassM Emitted := do
  match Text.unquoteString arg with
  | some text =>
    let st ← get
    return ⟨text.flatMap fun c => intBytes (st.charByte c).toNat width, none⟩
  | none =>
    if (← read).kind.isLabels then return ⟨List.replicate width 0, none⟩
    else
      let checked : PassM Int := do
        let value ← evalInt arg
        checkRange value width
        return value
      match ← observe checked with
      | .ok value => return ⟨intBytes value width, none⟩
      | .error fault => return ⟨intBytes 0 width, some fault⟩

/-- What an argument of a list of decimal floats gives. -/
def float (arg : Text) : PassM Emitted := do
  let bytes (value : Float) := (DataType.float.bytes value).getD []
  if (← read).kind.isLabels then return ⟨bytes 0, none⟩
  else
    match ← observe (eval arg) with
    | .ok value => return ⟨bytes value, none⟩
    | .error fault => return ⟨bytes 0, some fault⟩

/-- Puts a list of arguments into the output, then raises the first fault among them. -/
def emitAll (name : Text) (args : List Text) (item : Text → PassM Emitted) : PassM Unit := do
  if args.isEmpty then misuse (.noValue name)
  else
    let items ← args.mapM item
    emit (items.flatMap Emitted.bytes)
    match items.findSome? Emitted.fault with
    | some fault => throw fault
    | none => pure ()

/-- Writes the same byte a number of times. -/
def emitCopies (value : UInt8) : (count : Nat) → PassM Unit
  | 0 => pure ()
  | count + 1 => do
    emitByte value
    emitCopies value count

/-- Fills a stretch with a byte.  Without a byte, and in the labels passes, the program counter
only moves. -/
def fillWith (countArg : Text) (byteArg : Option Text) : PassM Unit := do
  let count ← evalCount countArg
  match byteArg with
  | none => advance count
  | some arg =>
    if (← read).kind.isLabels then advance count
    else
      let value ← evalInt arg
      checkRange value 1
      emitCopies (lowByte value) count

/-- Moves the program counter on to a multiple of a number. -/
def alignTo (arg : Text) : PassM Unit := do
  let boundary ← evalInt arg
  if boundary ≤ 0 then misuse (.badAlignment boundary)
  else
    let pc : Int := (← get).pages.pc
    advance (((boundary - pc % boundary) % boundary).toNat % addressSpace)

/-- Executes a directive that puts bytes into the output. -/
def run (d : DataDirective) (name rest : Text) : PassM Unit :=
  let args := Text.arguments rest
  match d, args with
  | .values width, _ => emitAll name args (integer width)
  | .floats, _ => emitAll name args float
  | .fill, [count] => fillWith count (some ['0'])
  | .fill, [count, byte] | .reserve, [count, byte] => fillWith count (some byte)
  | .reserve, [count] => fillWith count none
  | .fill, _ | .reserve, _ => misuse (.argumentCount name 1 2 args.length)
  | .align, [arg] => alignTo arg
  | .align, _ => misuse (.argumentCount name 1 1 args.length)

end DataDirective

end MacroAssembler
