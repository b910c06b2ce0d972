import Std.Data.TreeMap
import MacroAssembler.Number.Binary

/-!
# Pages

Output goes to pages.  A page is a sparse map from addresses to cells, and a cell remembers how
often it was written.  A page may be declared with an origin and a size, which bound the addresses
it takes; a page without them takes every address and starts at the lowest one written.

Addresses are 32-bit numbers, and the program counter wraps around.
-/

namespace MacroAssembler

/-- A failure to define, to select or to write a page. -/
inductive PageError where
  | redefined (page : Nat)
  /-- Page zero can be redefined once, while it is empty. -/
  | locked
  | unknown (page : Nat)
  | outOfBounds (page address : Nat)
  deriving DecidableEq, Repr

/-- A number in hexadecimal, at least four digits wide. -/
def hexWord (n : Nat) : String :=
  let digits := (Nat.toDigits 16 n).map Char.toUpper
  String.ofList (List.replicate (4 - digits.length) '0' ++ digits)

/-- The text shown for a failure. -/
def PageError.message : PageError → String
  | .redefined page => s!"page {page} already defined"
  | .locked => "page 0 can only be redefined once, before any output"
  | .unknown page => s!"page {page} not defined"
  | .outOfBounds page address => s!"address ${hexWord address} outside of page {page}"

/-- The number of addresses. -/
def addressSpace : Nat := Nat.pow 2 32

/-- A byte of output. -/
structure Cell where
  value : UInt8
  /-- How often it was written, up to 2³² times. -/
  writes : Nat
  /-- Written while the output was marked as squished. -/
  squished : Bool
  deriving DecidableEq, Repr

/-- A page of output and its program counter. -/
structure Page where
  number : Nat
  origin : Option Nat
  size : Option Nat
  fill : Option UInt8
  pc : Nat
  cells : Std.TreeMap Nat Cell := ∅

namespace Page

/-- An empty page with its program counter at the origin. -/
def new (number : Nat) (origin size : Option Nat) (fill : Option UInt8) : Page where
  number := number
  origin := origin
  size := size
  fill := fill
  pc := origin.getD 0

/-- Whether nothing was written. -/
def isEmpty (page : Page) : Bool :=
  page.cells.isEmpty

/-- The first address of the image: the origin, else the lowest address written. -/
def start (page : Page) : Nat :=
  (page.origin <|> page.cells.minKey?).getD 0

/-- Whether an address lies inside of the declared bounds. -/
def contains (page : Page) (address : Nat) : Bool :=
  match page.origin, page.size with
  | some origin, some size => origin ≤ address && address - origin < size
  | _, _ => true

/-- The number of bytes in the image: the declared size, else up to the highest address
written. -/
def imageLength (page : Page) : Nat :=
  match page.size with
  | some size => size
  | none => (page.cells.maxKey?.map fun last => last - page.start + 1).getD 0

/-- The bytes of the page from its start on.  Cells that were not written hold the fill byte. -/
def image (page : Page) (defaultFill : UInt8) : List UInt8 :=
  let fill := page.fill.getD defaultFill
  (List.range page.imageLength).map fun offset =>
    match page.cells[page.start + offset]? with
    | some cell => cell.value
    | none => fill

/-- Joins ascending addresses into ranges of neighbours, both ends included. -/
def joinRanges : List Nat → List (Nat × Nat)
  | [] => []
  | address :: rest =>
    match joinRanges rest with
    | (first, last) :: ranges =>
      if address + 1 = first then (address, last) :: ranges
      else (address, address) :: (first, last) :: ranges
    | [] => [(address, address)]

/-- The ranges of addresses that were written more than once. -/
def overlaps (page : Page) : List (Nat × Nat) :=
  joinRanges ((page.cells.toList.filter fun (_, cell) => 1 < cell.writes).map Prod.fst)

/-- The page after a byte was written at an address. -/
def write (page : Page) (address : Nat) (value : UInt8) (squished : Bool) : Page :=
  let writes := (page.cells[address]?.map Cell.writes).getD 0
  { page with cells := page.cells.insert address ⟨value, writes + 1, squished⟩ }

end Page

/-- All the pages of a pass.  Page zero is always there, and one page is current. -/
structure Pages where
  pages : Std.TreeMap Nat Page := (∅ : Std.TreeMap Nat Page).insert 0 (Page.new 0 none none none)
  current : Nat := 0
  /-- Whether page zero has been redefined. -/
  zeroLocked : Bool := false
  squish : Bool := false
  /-- The fill byte of pages that have none of their own. -/
  emptyFill : UInt8 := 0

namespace Pages

variable (ps : Pages)

/-- The page with a number. -/
def get? (number : Nat) : Option Page :=
  ps.pages[number]?

/-- The current page. -/
def page : Page :=
  (ps.get? ps.current).getD (Page.new 0 none none none)

/-- The pages with the current one changed. -/
def modifyPage (f : Page → Page) : Pages :=
  { ps with pages := ps.pages.insert ps.current (f ps.page) }

/-- The pages in the order of their numbers. -/
def toList : List Page :=
  ps.pages.toList.map Prod.snd

/-- Declares a page with its bounds.  Page zero may be declared once, while it is empty. -/
def define (number origin size : Nat) (fill : Option UInt8) : Except PageError Pages :=
  let declared := ps.pages.insert number (Page.new number (some origin) (some size) fill)
  if number = 0 then
    if ps.zeroLocked || !((ps.get? 0).all Page.isEmpty) then .error .locked
    else .ok { ps with pages := declared, zeroLocked := true }
  else if ps.pages.contains number then .error (.redefined number)
  else .ok { ps with pages := declared }

/-- Makes a page current. -/
def select (number : Nat) : Except PageError Pages :=
  if ps.pages.contains number then .ok { ps with current := number } else .error (.unknown number)

/-- The program counter of the current page. -/
def pc : Nat :=
  ps.page.pc

/-- Moves the program counter of the current page to an address. -/
def setPc (address : Nat) : Pages :=
  ps.modifyPage fun page => { page with pc := address }

/-- Moves the program counter of the current page on, without writing. -/
def advance (count : Nat) : Pages :=
  ps.setPc ((ps.pc + count) % addressSpace)

/-- Writes a byte at the program counter and moves on.  The result also tells the address. -/
def write (value : UInt8) : Except PageError (Nat × Pages) :=
  let address := ps.pc
  if ps.page.contains address then
    .ok (address, ps.modifyPage fun page =>
      { page.write address value ps.squish with pc := (address + 1) % addressSpace })
  else .error (.outOfBounds ps.page.number address)

/-- The images of all pages, in the order of their numbers. -/
def binary : List UInt8 :=
  ps.toList.flatMap (·.image ps.emptyFill)

end Pages

end MacroAssembler
