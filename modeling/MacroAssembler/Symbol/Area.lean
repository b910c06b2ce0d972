import MacroAssembler.Symbol.Name

/-!
# Areas for variables

Variables are placed in areas of memory set aside for them.  They are placed in order of size,
the largest first and equal ones in the order of their declaration, each in the area with the most
free space.  Areas fill up from their start.

Temporaries of modules that do not contain each other are never in use at the same time, so they
may share their places: the modules inside of one module each start from the same free space.
-/

namespace MacroAssembler

/-- A stretch of memory for variables, used up to some point.  Its numbers are exact, and those of
32 bits if it ends below that limit. -/
structure VarArea where
  start : Nat
  size : Nat
  used : Nat := 0
  deriving DecidableEq, Repr

/-- A variable to be placed. -/
structure VarRequest where
  name : Text
  size : Nat
  deriving DecidableEq, Repr

namespace VarRequest

/-- Puts a variable in front of the first one that is smaller. -/
def insert (var : VarRequest) : List VarRequest → List VarRequest
  | [] => [var]
  | first :: rest =>
    if first.size < var.size then var :: first :: rest else first :: insert var rest

/-- Variables in order of size, the largest first and equal ones in the order given. -/
def largestFirst (vars : List VarRequest) : List VarRequest :=
  vars.foldl (fun sorted var => insert var sorted) []

end VarRequest

/-- The temporaries of a module and of the modules inside of it. -/
inductive TempScope where
  | node (vars : List VarRequest) (children : List TempScope)
  deriving Inhabited

/-- A placement of variables.  What was placed before a failure stays placed. -/
abbrev AreaM := EStateM SymbolError (List VarArea)

namespace VarArea

/-- The number of bytes left. -/
def free (area : VarArea) : Nat :=
  area.size - area.used

/-- The largest number of bytes left in one area. -/
def mostFree (areas : List VarArea) : Nat :=
  (areas.map free).foldl max 0

/-- Takes bytes from the first area with exactly `free` bytes left: their address, and the areas
afterwards. -/
def take (size left : Nat) : List VarArea → Option (Nat × List VarArea)
  | [] => none
  | area :: areas =>
    if area.free = left then
      some (area.start + area.used, { area with used := area.used + size } :: areas)
    else (take size left areas).map fun (address, areas) => (address, area :: areas)

/-- Places one variable in the first of the areas with the most free space. -/
def place (var : VarRequest) : AreaM (Text × Nat) := do
  let areas ← get
  let left := mostFree areas
  match if var.size ≤ left then take var.size left areas else none with
  | some (address, areas) =>
    set areas
    return (var.name, address)
  | none => throw (.allocationFailed var.name var.size left)

/-- Places variables, the largest first. -/
def allocate (vars : List VarRequest) : AreaM (List (Text × Nat)) :=
  (VarRequest.largestFirst vars).mapM place

mutual

/-- Places the temporaries of a module and of those inside of it. -/
def allocateScoped : TempScope → AreaM (List (Text × Nat))
  | .node vars children => do
    let placed ← allocate vars
    return placed ++ (← allocateSiblings children)

/-- Places the temporaries of modules side by side, each from the same free space. -/
def allocateSiblings : List TempScope → AreaM (List (Text × Nat))
  | [] => return []
  | child :: children => do
    let before ← get
    let placed ← allocateScoped child
    set before
    return placed ++ (← allocateSiblings children)

end

end VarArea

end MacroAssembler
