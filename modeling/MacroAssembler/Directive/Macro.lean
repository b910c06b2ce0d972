import MacroAssembler.Directive.Name
import MacroAssembler.Pass.State

/-!
# Macro definitions

A macro is defined on one line, or by collecting the statements up to an end mark.  Collected
statements are joined by the mark that separates statements on a line.
-/

namespace MacroAssembler

namespace MacroDirective

open PassM

/-- Executes a directive on macros. -/
def run (d : MacroDirective) (name rest : Text) : PassM Unit := do
  let st ← get
  match d with
  | .define =>
    let (target, replacement) ← ofExcept .macroUse (Replacement.ofDefinition rest)
    set { st with macros := st.macros.define target replacement }
  | .extend =>
    let macros ← ofExcept .macroUse (st.macros.append rest)
    set { st with macros := macros }
  | .beginLong =>
    let (target, replacement) ← ofExcept .macroUse (Replacement.ofDefinition rest)
    if !replacement.template.isEmpty then misuse (.bodyOnHeader target)
    else set { st with longMacro := some (target, replacement) }
  | .endLong => misuse .enddeflongOutside
  | .undefine =>
    let target := Text.trim rest
    if target.isEmpty then misuse (.noMacroName name)
    else
      let macros ← ofExcept .macroUse (st.macros.undefine target)
      set { st with macros := macros }

end MacroDirective

/-- A template with one more statement. -/
def Replacement.collect (r : Replacement) (statement : Text) : Replacement :=
  if r.template.isEmpty then { r with template := statement }
  else { r with template := r.template ++ " \\ ".toList ++ statement }

/-- The state after a statement was added to the macro that is being collected, or the macro was
completed. -/
def State.collect (st : State) (statement : Text) : State :=
  match st.longMacro with
  | none => st
  | some (name, replacement) =>
    if Directive.ofWord (Text.splitWord statement).1 = some (.macroText .endLong) then
      { st with longMacro := none, macros := st.macros.define name replacement }
    else { st with longMacro := some (name, replacement.collect statement) }

end MacroAssembler
