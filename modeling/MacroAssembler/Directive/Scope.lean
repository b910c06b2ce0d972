import MacroAssembler.Directive.Name
import MacroAssembler.Pass.State

/-!
# Modules and the visibility of names
-/

namespace MacroAssembler

namespace ScopeDirective

/-- The setting that a text stands for. -/
def readSwitch (name text : Text) : PassM Bool :=
  let text := Text.asciiLower (Text.trim text)
  if text = "on".toList ∨ text = "true".toList ∨ text = "1".toList then pure true
  else if text = "off".toList ∨ text = "false".toList ∨ text = "0".toList then pure false
  else PassM.misuse (.notASwitch name text)

/-- Makes the local labels of a module visible in the current one.  Only the assembling pass
insists that the module is there. -/
def importModule (name : Text) : PassM Unit := do
  let st ← get
  if (st.symbols.findModule? st.home name).isNone && (← read).kind == .assemble then
    PassM.misuse (.unknownModule name)
  else set { st with symbols := st.symbols.addImport st.home name }

/-- Puts a name among those that are exported at the end of the pass. -/
def exportName (name : Text) : PassM Unit :=
  modify fun st =>
    { st with exports := st.exports ++ [(name, st.home)] }.record (.exported name st.scope)

/-- Executes a directive on modules and names. -/
def run (d : ScopeDirective) (name rest : Text) : PassM Unit := do
  let args := Text.arguments rest
  let one (f : Text → PassM Unit) : PassM Unit :=
    match args with
    | [arg] => f arg
    | _ => PassM.misuse (.argumentCount name 1 1 args.length)
  match d with
  | .enter => one fun arg => do
    if arg.contains '.' then PassM.misuse (.modulePath arg)
    PassM.ofExcept .symbol (checkName arg)
    PassM.enterModule arg
  | .leave => PassM.leaveModule
  | .imports => if args.isEmpty then PassM.misuse .noModule else args.forM importModule
  | .nest => one fun arg => do
    let on ← readSwitch name arg
    modify fun st => { st with nestModules := on }
  | .allLocal => modify fun st => { st with allLocal := true }
  | .allGlobal => modify fun st => { st with allLocal := false }
  | .localMark => one fun arg => modify fun st => { st with localMark := Text.unquoted arg }
  | .exports =>
    if args.isEmpty then PassM.misuse .noExport
    else if (← read).kind == .assemble then args.forM exportName

end ScopeDirective

end MacroAssembler
