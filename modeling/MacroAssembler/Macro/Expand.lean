import MacroAssembler.Macro.Table

/-!
# Expansion of macros

A text is expanded word by word.  A word that names a macro is replaced by the template of the
replacement that fits the argument list behind it, if there is one, and the result is expanded
again, one level deeper.  When no replacement with slots fits, the one without brackets is used,
and the argument list stays.

Expression slots are compared by value.  The argument is expanded first, which may itself need
arguments to be compared.  Each such step goes one level deeper too; the levels are limited for
templates only, but an argument is shorter than the text it stands in, so the steps end.

Evaluating a slot may read and write a state, which survives a failure.
-/

namespace MacroAssembler

/-- An expansion that may fail; the state survives a failure. -/
abbrev ExpandM (σ : Type) := EStateM MacroError σ

/-- The argument list behind a macro name. -/
inductive CallArguments where
  | none
  | unclosed
  /-- The arguments, and the number of characters they take with their brackets and the blanks in
  front of them. -/
  | list (args : List Text) (length : Nat)

namespace CallArguments

/-- Reads the argument list at the start of a text. -/
def read (text : Text) : CallArguments :=
  let trimmed := Text.trimStart text
  if trimmed.head? = some '(' then
    match Text.bracketed trimmed with
    | .none => .unclosed
    | some (inner, after) =>
      .list ((Text.listItems inner).map Text.trim) (text.length - after.length)
  else .none

end CallArguments

namespace Replacement

/-- The template with its parameters replaced by arguments. -/
def substitute (r : Replacement) (args : List Text) (caseSensitive : Bool) : Text :=
  match r.slots with
  | none => r.template
  | some slots =>
    let params := (slots.zip args).filterMap fun
      | (.wildcard name, arg) => some (name, arg)
      | _ => none
    let isParam (word name : Text) :=
      if caseSensitive then name == word else Text.sameIgnoringCase name word
    (MacroToken.ofText r.template).flatMap fun
      | .word word => ((params.find? (isParam word ·.1)).map Prod.snd).getD word
      | .other text => text

end Replacement

namespace MacroTable

variable {σ : Type} (table : MacroTable) (eval : Text → StateM σ (Option Float))

/-- Runs the evaluation of an expression slot. -/
def evalSlot (text : Text) : ExpandM σ (Option Float) :=
  modifyGet (eval text)

/-- Whether an argument fits a slot.  `expandArg` expands an argument that is compared by
value. -/
def slotMatches (expandArg : Text → ExpandM σ Text) (slot : Slot) (arg : Text) :
    ExpandM σ Bool :=
  match slot with
  | .wildcard _ => return true
  | .text text => return Text.sameIgnoringCase (Text.unquoted arg) text
  | .value expected => do
    let arg ← expandArg arg
    let a ← evalSlot eval expected
    let b ← evalSlot eval arg
    match a, b with
    | some a, some b => return a == b
    | _, _ => return false

/-- Whether arguments fit slots, tried from left to right up to the first misfit. -/
def slotsMatch (expandArg : Text → ExpandM σ Text) : List Slot → List Text → ExpandM σ Bool
  | slot :: slots, arg :: args => do
    if ← slotMatches eval expandArg slot arg then slotsMatch expandArg slots args
    else return false
  | _, _ => return true

/-- The first of the replacements that takes an argument list. -/
def selectCall (expandArg : Text → ExpandM σ Text) (args : List Text) :
    List Replacement → ExpandM σ (Option Replacement)
  | [] => return none
  | r :: rest =>
    match r.slots with
    | some slots => do
      if ← (if slots.length = args.length then slotsMatch eval expandArg slots args
            else return false) then return some r
      else selectCall expandArg args rest
    | none => selectCall expandArg args rest

/-- The replacement for a call, and whether it uses up the argument list. -/
def select (expandArg : Text → ExpandM σ Text) (list : List Replacement)
    (args : Option (List Text)) : ExpandM σ (Option (Replacement × Bool)) := do
  let chosen ←
    match args with
    | some args => selectCall eval expandArg args list
    | none => pure none
  match chosen with
  | some r => return some (r, true)
  | none => return (list.find? (·.slots.isNone)).map (·, false)

/-- Expands the words of a text from left to right.  `skip` counts the characters that an argument
list has used up; a token that starts among them is dropped. -/
def expandTokens (expandArg : Text → ExpandM σ Text)
    (expandBody : (word body : Text) → ExpandM σ Text)
    (whole : Text) : (skip : Nat) → List MacroToken → ExpandM σ Text
  | _, [] => return []
  | skip + 1, token :: tokens =>
    expandTokens expandArg expandBody whole (skip + 1 - token.text.length) tokens
  | 0, .other text :: tokens =>
    return text ++ (← expandTokens expandArg expandBody whole 0 tokens)
  | 0, .word word :: tokens => do
    let keep : ExpandM σ Text :=
      return word ++ (← expandTokens expandArg expandBody whole 0 tokens)
    match table.macros.lookup (table.key word) with
    | none => keep
    | some list =>
      let (args, length) ←
        match CallArguments.read (MacroToken.textOf tokens) with
        | .none => pure (none, 0)
        | .unclosed => throw (.unbalanced whole)
        | .list args length => pure (some args, length)
      match ← select eval expandArg list args with
      | none => keep
      | some (r, consumed) =>
        let expanded ← expandBody word (r.substitute (args.getD []) table.caseSensitive)
        let rest ← expandTokens expandArg expandBody whole (if consumed then length else 0) tokens
        return expanded ++ rest

/-- Expands a text in which no template may be used any more. -/
def expandFlat (text : Text) : ExpandM σ Text :=
  expandTokens table eval
    (fun arg =>
      -- an argument is always shorter than the text it stands in
      if arg.length < text.length then expandFlat arg else pure arg)
    (fun word _ => throw (.tooDeep word)) text 0 (MacroToken.ofText text)
termination_by text.length

/-- Expands a text in which templates may still nest `levels` deep. -/
def expandAt : (levels : Nat) → (text : Text) → ExpandM σ Text
  | 0, text => expandFlat table eval text
  | levels + 1, text =>
    expandTokens table eval (expandAt levels) (fun _ body => expandAt levels body) text 0
      (MacroToken.ofText text)

/-- Expands all the macros in a text. -/
def expand (text : Text) : ExpandM σ Text :=
  if table.isEmpty then return text else expandAt table eval maxExpansions text

end MacroTable

end MacroAssembler
