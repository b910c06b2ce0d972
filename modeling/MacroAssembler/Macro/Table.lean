import MacroAssembler.Macro.Token
import MacroAssembler.Text.Bracket

/-!
# Macros

A macro has a name and one or more replacements.  A replacement is written without brackets, or
with a list of slots for the arguments of a call.  A slot is a parameter, which takes any argument,
a literal, which takes the same text, or an expression, which takes arguments of the same value.

Replacements of one name are told apart by their signatures: the slots, but not the names of the
parameters.  They are kept in the order in which a call tries them, those with the fewest
parameters first and equal ones in the order of their definition.
-/

namespace MacroAssembler

/-- How many expansions may be nested in each other. -/
def maxExpansions : Nat := 64

/-- A failure to define or to expand a macro. -/
inductive MacroError where
  | invalidName (name : Text)
  | unbalanced (text : Text)
  | tooDeep (name : Text)
  | unknownMacro (name : Text)
  deriving DecidableEq, Repr

/-- The text shown for a failure. -/
def MacroError.message : MacroError → String
  | .invalidName name => s!"invalid macro name '{String.ofList name}'"
  | .unbalanced text => s!"unbalanced macro arguments in '{String.ofList text}'"
  | .tooDeep name =>
    s!"macro '{String.ofList name}' expands recursively more than {maxExpansions} levels"
  | .unknownMacro name => s!"macro '{String.ofList name}' is not defined"

/-- A place for an argument. -/
inductive Slot where
  /-- A parameter, which takes any argument. -/
  | wildcard (name : Text)
  /-- Takes the same text, ignoring case. -/
  | text (text : Text)
  /-- An expression; takes arguments of the same value. -/
  | value (text : Text)
  deriving DecidableEq, Repr

namespace Slot

/-- Whether a text is a parameter name. -/
def isParameter (text : Text) : Bool :=
  text.head?.any (fun c => isAlphabetic c || c == '_') && text.all isNameChar

/-- The slot a text describes. -/
def ofText (text : Text) : Slot :=
  let text := Text.trim text
  match Text.unquote text with
  | some chars => .text chars
  | none => if isParameter text then .wildcard text else .value text

/-- Whether the slot takes any argument. -/
def isWildcard : Slot → Bool
  | .wildcard _ => true
  | _ => false

/-- Whether two slots take the same arguments, as far as their texts show. -/
def same : Slot → Slot → Bool
  | .wildcard _, .wildcard _ => true
  | .text a, .text b => Text.sameIgnoringCase a b
  | .value a, .value b => a == b
  | _, _ => false

end Slot

/-- What a macro is replaced by: the slots of its calls, none if it is written without brackets,
and a text in which the parameters stand for the arguments. -/
structure Replacement where
  slots : Option (List Slot)
  template : Text
  deriving DecidableEq, Repr

namespace Replacement

/-- The number of slots that do not take every argument. -/
def rank (r : Replacement) : Nat :=
  (r.slots.getD []).countP (!·.isWildcard)

/-- Whether two lists of slots are alike slot by slot. -/
def sameSlots : List Slot → List Slot → Bool
  | [], [] => true
  | a :: as, b :: bs => a.same b && sameSlots as bs
  | _, _ => false

/-- Whether a definition of `r` replaces `s`. -/
def sameSignature (r s : Replacement) : Bool :=
  match r.slots, s.slots with
  | none, none => true
  | some as, some bs => sameSlots as bs
  | _, _ => false

/-- The name and the replacement of a definition: `name template`, `name(slots) template` or just
a name. -/
def ofDefinition (text : Text) : Except MacroError (Text × Replacement) :=
  let text := Text.trim text
  let inName (c : Char) := !isBlank c && c != '('
  let name := text.takeWhile inName
  let rest := text.dropWhile inName
  let valid := name.head?.any (fun c => isAlphabetic c || c == '_' || c == '.') &&
    !name.any separators.contains
  if !valid then .error (.invalidName name)
  else if rest.head? = some '(' then
    match Text.bracketed rest with
    | none => .error (.unbalanced text)
    | some (inner, after) =>
      .ok (name, ⟨some ((Text.listItems inner).map Slot.ofText), Text.trim after⟩)
  else .ok (name, ⟨none, Text.trim rest⟩)

end Replacement

/-- The macros of a pass under their keys, and the replacement that was defined last. -/
structure MacroTable where
  macros : Index (List Replacement) := []
  last : Option (Text × Replacement) := none
  caseSensitive : Bool := false
  deriving DecidableEq, Repr

namespace MacroTable

/-- The key a macro name is filed under. -/
def key (table : MacroTable) (name : Text) : Text :=
  Text.nameKey table.caseSensitive name

/-- Whether no macro is defined. -/
def isEmpty (table : MacroTable) : Bool :=
  table.macros.isEmpty

/-- Whether a macro is defined. -/
def contains (table : MacroTable) (name : Text) : Bool :=
  (table.macros.lookup (table.key name)).isSome

/-- The list with `f` applied to the first replacement of the same signature as `r`, if there is
one. -/
def updateFirst (r : Replacement) (f : Replacement → Replacement) :
    List Replacement → Option (List Replacement)
  | [] => none
  | s :: rest =>
    if s.sameSignature r then some (f s :: rest) else (updateFirst r f rest).map (s :: ·)

/-- The replacements of a name after one more definition. -/
def addReplacement (r : Replacement) (list : List Replacement) : List Replacement :=
  ((updateFirst r (fun _ => r) list).getD (list ++ [r])).mergeSort fun a b => b.rank ≤ a.rank

/-- Adds a replacement, in place of one with the same signature. -/
def define (table : MacroTable) (name : Text) (r : Replacement) : MacroTable :=
  let key := table.key name
  let list := (table.macros.lookup key).getD []
  { table with macros := table.macros.put key (addReplacement r list), last := some (key, r) }

/-- Removes a macro with all its replacements. -/
def undefine (table : MacroTable) (name : Text) : Except MacroError MacroTable :=
  let key := table.key name
  if (table.macros.lookup key).isSome then .ok { table with macros := table.macros.remove key }
  else .error (.unknownMacro name)

/-- Adds text to the template of the replacement that was defined last. -/
def append (table : MacroTable) (text : Text) : Except MacroError MacroTable :=
  match table.last with
  | none => .error (.unknownMacro ".defcont".toList)
  | some (key, r) =>
    let extend (s : Replacement) : Replacement := { s with template := s.template ++ text }
    match (table.macros.lookup key).bind (updateFirst r extend) with
    | some list =>
      .ok { table with macros := table.macros.put key list, last := some (key, extend r) }
    | none => .error (.unknownMacro key)

end MacroTable

end MacroAssembler
