import MacroAssembler.DataType
import MacroAssembler.Symbol.Name

/-!
# The symbol tree

Labels live in modules, and modules form a tree with three permanent roots.  The *root* is the
parent of the modules that a source declares.  The *global* module is the home of every label
that is not local to a module.  The *noname* module is where a source starts, outside of any
module of its own.

Modules and labels are numbered in the order in which they are created, and the numbers never
change.  A module is always created after its parent, so walking up the tree ends.  Children and
labels of a module are filed under their keys, which ignore case unless the assembly is
case-sensitive.
-/

namespace MacroAssembler

/-- The number of a module in its tree. -/
abbrev ModuleId := Nat

/-- The number of a label in its tree. -/
abbrev LabelId := Nat

/-- What kind of label a definition makes. -/
structure LabelFlags where
  /-- Declared as a variable, and placed by the allocator. -/
  isVariable : Bool := false
  /-- A variable that may share its place with those of unrelated modules. -/
  isTemporary : Bool := false
  /-- Assigned a value, or the counter of a loop; may be defined again. -/
  isConstant : Bool := false
  /-- The place of a struct member. -/
  isMember : Bool := false
  deriving DecidableEq, Repr

/-- All that a definition says about a label. -/
structure LabelDef where
  value : Float
  page : Nat := 0
  location : Option Location := none
  type : Option DataType := none
  count : Nat := 1
  size : Nat := 0
  flags : LabelFlags := {}

/-- A label: its name and home, what its last definition said, and what is known of its use. -/
structure Label where
  name : Text
  home : ModuleId
  info : LabelDef
  isExported : Bool := false
  references : Array Location := #[]

/-- The value of a label. -/
def Label.value (label : Label) : Float :=
  label.info.value

/-- What an expression can ask of a label. -/
inductive Aspect where
  | value
  | page
  | size
  deriving DecidableEq, Repr

/-- The number that a label has under an aspect. -/
def Label.number (label : Label) : Aspect → Float
  | .value => label.value
  | .page => Float.ofNat label.info.page
  | .size => Float.ofNat label.info.size

/-- A module: its children and labels under their keys, and the names of the modules whose local
labels it sees. -/
structure Module where
  name : Text
  parent : Option ModuleId
  children : List (Text × ModuleId) := []
  /-- The children in the order of creation. -/
  childOrder : List ModuleId := []
  labels : List (Text × LabelId) := []
  imports : List Text := []
  deriving Inhabited

/-- How names are seen from a place in the source. -/
structure Scope where
  /-- The current module. -/
  home : ModuleId
  /-- Names that start with this text are local to the current module. -/
  localMark : Text
  /-- Whether all names are. -/
  allLocal : Bool

/-- Whether a name without a path belongs to the current module. -/
def Scope.isLocal (scope : Scope) (name : Text) : Bool :=
  scope.allLocal || (!scope.localMark.isEmpty && scope.localMark.isPrefixOf name)

/-- The modules and labels of one pass. -/
structure Symbols where
  modules : Array Module
  labels : Array Label
  caseSensitive : Bool

namespace Symbols

/-- The parent of the declared modules. -/
def root : ModuleId := 0

/-- The home of labels that are not local. -/
def global : ModuleId := 1

/-- The current module outside of all declared ones. -/
def noname : ModuleId := 2

/-- The three modules that have no parent. -/
def roots : List ModuleId := [root, global, noname]

/-- The tree with no module but the roots, and no label. -/
def empty (caseSensitive : Bool) : Symbols where
  modules := #[{ name := [], parent := none }, { name := "global".toList, parent := none },
    { name := "noname".toList, parent := none }]
  labels := #[]
  caseSensitive := caseSensitive

variable (t : Symbols)

/-- The key a name is filed under. -/
def key (name : Text) : Text :=
  Text.nameKey t.caseSensitive name

/-- The module with a number. -/
def moduleAt (m : ModuleId) : Module :=
  t.modules.getD m default

/-- The label with a number. -/
def label? (id : LabelId) : Option Label :=
  t.labels[id]?

/-- The tree with a label changed. -/
def modifyLabel (id : LabelId) (f : Label → Label) : Symbols :=
  { t with labels := t.labels.modify id f }

/-- The tree with a module changed. -/
def modifyModule (m : ModuleId) (f : Module → Module) : Symbols :=
  { t with modules := t.modules.modify m f }

/-- The child of a module with the given name. -/
def child? (m : ModuleId) (name : Text) : Option ModuleId :=
  (t.moduleAt m).children.lookup (t.key name)

/-- The label of a module with the given name. -/
def labelIn? (m : ModuleId) (name : Text) : Option LabelId :=
  (t.moduleAt m).labels.lookup (t.key name)

/-- The modules around a module, the nearest first. -/
def ancestors (m : ModuleId) : List ModuleId :=
  match (t.moduleAt m).parent with
  | none => []
  | some p => if p < m then p :: ancestors p else []
termination_by m

/-- The root above a module, and the names on the way down from there. -/
def modulePath (m : ModuleId) : ModuleId × List Text :=
  match (t.moduleAt m).parent with
  | none => (m, [])
  | some p =>
    if p < m then
      let (top, names) := modulePath p
      (top, names ++ [(t.moduleAt m).name])
    else (m, [])
termination_by m

/-- The modules that a path may be counted from: the current one, those around it, and the
roots. -/
def searchChain (m : ModuleId) : List ModuleId :=
  let chain := m :: t.ancestors m
  chain ++ roots.filter (!chain.contains ·)

/-- The module at the end of a path of children. -/
def walk? (base : ModuleId) (path : List Text) : Option ModuleId :=
  path.foldlM t.child? base

/-- The child of a module with the given name, created if there is none. -/
def enterModule (m : ModuleId) (name : Text) : ModuleId × Symbols :=
  match t.child? m name with
  | some id => (id, t)
  | none =>
    let id := t.modules.size
    let t' := { t with modules := t.modules.push { name := name, parent := some m } }
    (id, t'.modifyModule m fun parent => { parent with
      children := parent.children ++ [(t.key name, id)]
      childOrder := parent.childOrder ++ [id] })

/-- The module at the end of a path of children, created where it is missing. -/
def walkCreating (base : ModuleId) (path : List Text) : ModuleId × Symbols :=
  path.foldl (fun (m, t) name => enterModule t m name) (base, t)

/-- Makes the local labels of the modules with the given name visible in a module. -/
def addImport (m : ModuleId) (name : Text) : Symbols :=
  t.modifyModule m fun mod =>
    if mod.imports.contains name then mod else { mod with imports := mod.imports ++ [name] }

/-- The name of a root in qualified names. -/
def rootName (m : ModuleId) : Text :=
  if m = global then "global".toList
  else if m = noname then "noname".toList
  else "root".toList

/-- The name of a label with its whole path, the same in every pass. -/
def qualifiedName (label : Label) : Text :=
  let (top, names) := t.modulePath label.home
  ['.'].intercalate (rootName top :: names ++ [label.name])

/-- The name of a label as a source would write it. -/
def displayName (label : Label) : Text :=
  ['.'].intercalate ((t.modulePath label.home).2 ++ [label.name])

end Symbols

end MacroAssembler
