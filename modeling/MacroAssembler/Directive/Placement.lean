import MacroAssembler.Directive.Name
import MacroAssembler.Pass.Evaluate

/-!
# Pages and addresses
-/

namespace MacroAssembler

namespace PlacementDirective

open PassM

/-- Declares a page. -/
def definePageAt (numberArg originArg sizeArg : Text) (fillArg : Option Text) : PassM Unit := do
  let number ← evalAddress numberArg
  let origin ← evalAddress originArg
  let size ← evalAddress sizeArg
  let fill ← (fillArg.mapM fun arg => lowByte <$> evalInt arg : PassM (Option UInt8))
  let pages ← ofExcept .page ((← get).pages.define number origin size fill)
  modify fun st => { st with pages := pages }

/-- Lets labels count from another address than the output. -/
def beginRelocation (arg : Text) : PassM Unit := do
  if (← get).relocation.isSome then misuse .relocateInside
  else
    let address ← evalInt arg
    modify fun st => { st with relocation := some (address - st.pages.pc) }

/-- Executes a directive on pages and addresses. -/
def run (d : PlacementDirective) (name rest : Text) : PassM Unit := do
  let args := Text.arguments rest
  let one (f : Text → PassM Unit) : PassM Unit :=
    match args with
    | [arg] => f arg
    | _ => misuse (.argumentCount name 1 1 args.length)
  match d with
  | .origin => one fun arg => do
    let address ← evalAddress arg
    modify fun st => { st with pages := st.pages.setPc address }
  | .definePage =>
    match args with
    | [number, start, size] => definePageAt number start size none
    | [number, start, size, fill] => definePageAt number start size (some fill)
    | _ => misuse (.argumentCount name 3 4 args.length)
  | .selectPage => one fun arg => do
    let number ← evalAddress arg
    let pages ← ofExcept .page ((← get).pages.select number)
    modify fun st => { st with pages := pages }
  | .emptyFill => one fun arg => do
    let value ← evalInt arg
    modify fun st => { st with pages := { st.pages with emptyFill := lowByte value } }
  | .squish on => modify fun st => { st with pages := { st.pages with squish := on } }
  | .relocate => one beginRelocation
  | .endRelocate =>
    if (← get).relocation.isNone then misuse .endrelocateOutside
    else modify fun st => { st with relocation := none }
  | .binaryMode => one fun arg => do
    modify fun st => { st with binaryMode := some (Text.asciiLower (Text.unquoted arg)) }

end PlacementDirective

end MacroAssembler
