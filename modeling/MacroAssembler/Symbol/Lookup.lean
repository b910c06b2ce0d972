import MacroAssembler.Symbol.Tree

/-!
# Finding and defining labels

A name without a path denotes a global label unless it is local.  A local name is looked for in
the current module, then in the modules it imports, and last among the global labels.  A path is
looked for from each module of the search chain in turn, and from its explicit start if it has
one.

A definition lands where a look-up would find it first: local names in the current module, others
in the global one, and paths in the first module of the search chain that has the whole path, or
else below the current module, where the missing modules are created.
-/

namespace MacroAssembler

namespace PathStart

/-- The module a start stands for, seen from the current one. -/
def base (start : PathStart) (current : ModuleId) : ModuleId :=
  match start with
  | .this => current
  | .root => Symbols.root
  | .global => Symbols.global

end PathStart

namespace Symbols

variable (t : Symbols)

/-- The module that a path of names denotes, seen from a module. -/
def findModule? (current : ModuleId) (path : Text) : Option ModuleId :=
  (t.searchChain current).findSome? (t.walk? · (Text.splitOn '.' path))

/-- The modules that a module imports, as far as they exist. -/
def importedModules (m : ModuleId) : List ModuleId :=
  (t.moduleAt m).imports.filterMap (t.findModule? m)

/-- The label that a name denotes in a scope. -/
def resolve (name : Text) (scope : Scope) : Option LabelId :=
  let path := LabelPath.ofName name
  match path.start, path.modules with
  | some start, modules =>
    (t.walk? (start.base scope.home) modules).bind (t.labelIn? · path.leaf)
  | none, [] =>
    if scope.isLocal path.leaf then
      t.labelIn? scope.home path.leaf
        <|> (t.importedModules scope.home).findSome? (t.labelIn? · path.leaf)
        <|> t.labelIn? global path.leaf
    else t.labelIn? global path.leaf
  | none, modules =>
    ((t.searchChain scope.home).filterMap (t.walk? · modules)).findSome? (t.labelIn? · path.leaf)

/-- The module that a definition in a scope goes to, created if it is missing. -/
def targetModule (path : LabelPath) (scope : Scope) : ModuleId × Symbols :=
  match path.start, path.modules with
  | some start, modules => t.walkCreating (start.base scope.home) modules
  | none, [] => (if scope.isLocal path.leaf then scope.home else global, t)
  | none, modules =>
    match (t.searchChain scope.home).findSome? (t.walk? · modules) with
    | some m => (m, t)
    | none => t.walkCreating scope.home modules

/-- The module at the same path in `t` as `m` has in `other`, or the last one on the way there
that exists. -/
def equivalentModule (other : Symbols) (m : ModuleId) : ModuleId :=
  let (top, names) := other.modulePath m
  follow top names
where
  /-- Follows a path of children as far as it goes. -/
  follow (m : ModuleId) : List Text → ModuleId
    | [] => m
    | name :: names =>
      match t.child? m name with
      | some c => follow c names
      | none => m

end Symbols

/-- A change of the symbol tree that may fail; what was changed before a failure stays changed. -/
abbrev SymbolM := EStateM SymbolError Symbols

namespace Symbols

/-- Puts a definition into a module.  A label that is there already is only defined again by
`force`; it then keeps its old location if the new definition has none. -/
def insert (m : ModuleId) (leaf : Text) (info : LabelDef) (force : Bool) : SymbolM LabelId := do
  let t ← get
  match t.labelIn? m leaf with
  | some id =>
    if force then
      set (t.modifyLabel id fun label =>
        { label with info := { info with location := info.location <|> label.info.location } })
      return id
    else
      let old := t.label? id
      throw (.redefined ((old.map Label.name).getD leaf) (old.bind (·.info.location)))
  | none =>
    let id := t.labels.size
    let t := { t with labels := t.labels.push { name := leaf, home := m, info := info } }
    set (t.modifyModule m fun mod => { mod with labels := (t.key leaf, id) :: mod.labels })
    return id

/-- Defines a label in a scope. -/
def define (name : Text) (scope : Scope) (info : LabelDef) (force : Bool) : SymbolM LabelId := do
  match checkName name with
  | .error e => throw e
  | .ok () =>
    let path := LabelPath.ofName name
    let m ← modifyGet (targetModule · path scope)
    insert m path.leaf info force

/-- Defines a label below the module named after another label, at a path of names. -/
def defineMember (base : LabelId) (path : Text) (info : LabelDef) : SymbolM LabelId := do
  match (← get).label? base with
  | none => throw (.invalidName path)
  | some owner =>
    let parts := Text.splitOn '.' path
    let m ← modifyGet (walkCreating · owner.home (owner.name :: parts.dropLast))
    insert m (parts.getLast?.getD []) info true

end Symbols

end MacroAssembler
