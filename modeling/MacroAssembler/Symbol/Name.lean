import MacroAssembler.Diagnostic

/-!
# Names of labels

A label name is a path of one or more parts with dots between.  All parts but the last name
modules.  A path of several parts may start with `this`, `root` or `global`, which pins down the
module it is counted from; otherwise it is looked for along the modules around the current one.
-/

namespace MacroAssembler

/-- A failure to define a name, to find a type or to place a variable. -/
inductive SymbolError where
  | invalidName (name : Text)
  | redefined (name : Text) (previous : Option Location)
  | unknownType (name : Text)
  | recursiveStruct (name : Text)
  | structRedefined (name : Text)
  | allocationFailed (name : Text) (size free : Nat)
  deriving DecidableEq, Repr

/-- The text shown for a failure. -/
def SymbolError.message : SymbolError → String
  | .invalidName name => s!"invalid label name '{String.ofList name}'"
  | .redefined name (some place) =>
    s!"label '{String.ofList name}' already defined (line {place.line})"
  | .redefined name none => s!"label '{String.ofList name}' already defined"
  | .unknownType name => s!"unknown type '{String.ofList name}'"
  | .recursiveStruct name => s!"struct '{String.ofList name}' cannot contain itself"
  | .structRedefined name => s!"struct '{String.ofList name}' already defined"
  | .allocationFailed name size free =>
    s!"unable to allocate {size} byte(s) for variable '{String.ofList name}' " ++
      s!"({free} byte(s) free in the largest area)"

/-- The characters that no label name holds, blanks aside. -/
def invalidNameChars : Text :=
  "+-*/:()<>&%^|\"'\x7b\x7d,$@#=!~?;\\".toList

/-- Whether a text can be the name of a label. -/
def isValidName (name : Text) : Bool :=
  !name.head?.any Char.isDigit && !(Text.splitOn '.' name).any List.isEmpty &&
    name.all fun c => !invalidNameChars.contains c && !isBlank c

/-- Fails unless a text can be the name of a label. -/
def checkName (name : Text) : Except SymbolError Unit :=
  if isValidName name then .ok () else .error (.invalidName name)

/-- An explicit start of a path. -/
inductive PathStart where
  | this
  | root
  | global
  deriving DecidableEq, Repr

/-- A label name taken apart. -/
structure LabelPath where
  start : Option PathStart
  modules : List Text
  leaf : Text
  deriving DecidableEq, Repr

namespace PathStart

/-- The start a part of a path stands for, ignoring case. -/
def ofPart (part : Text) : Option PathStart :=
  let part := Text.asciiLower part
  if part = "this".toList then some .this
  else if part = "root".toList then some .root
  else if part = "global".toList then some .global
  else none

end PathStart

namespace LabelPath

/-- Takes a label name apart. -/
def ofName (name : Text) : LabelPath :=
  let parts := Text.splitOn '.' name
  let leaf := parts.getLast?.getD []
  match parts.dropLast with
  | [] => ⟨none, [], leaf⟩
  | first :: more =>
    match PathStart.ofPart first with
    | some start => ⟨some start, more, leaf⟩
    | none => ⟨none, first :: more, leaf⟩

end LabelPath

end MacroAssembler
