import MacroAssembler.Directive.Data

/-!
# Generated tables

Random numbers, and tables of a wave: the sine, the cosine or the tangent at evenly spaced angles,
scaled, moved and rounded.
-/

namespace MacroAssembler

/-- The number of radians in a full turn. -/
def fullTurn : Float := Float.ofBits 0x401921FB54442D18

/-- The wave itself. -/
def WaveShape.at (shape : WaveShape) (x : Float) : Float :=
  match shape with
  | .sine => x.sin
  | .cosine => x.cos
  | .tangent => x.tan

/-- What a table of a wave is made of. -/
structure WaveTable where
  shape : WaveShape
  /-- How many angles make a full turn. -/
  angles : Float
  amplitude : Float
  /-- The first angle. -/
  first : Float
  /-- The last angle. -/
  last : Float
  /-- The distance between angles. -/
  step : Float
  /-- What is added to every value. -/
  offset : Float

namespace WaveTable

variable (w : WaveTable)

/-- One with the sign of a number, or the number itself if it has none. -/
def signOf (x : Float) : Float :=
  if x.isNaN then x else if Value.isNegative x then -1 else 1

/-- The entry at an angle. -/
def entry (angle : Float) : Int :=
  Value.toWord (Value.round (w.amplitude * w.shape.at (angle * fullTurn / w.angles) + w.offset))

/-- Whether an angle still belongs to the table. -/
def covers (angle : Float) : Bool :=
  (0 < w.step && angle ≤ w.last) || (w.step < 0 && w.last ≤ angle)

/-- The entries from an angle on, in a table with room for some more. -/
def entriesFrom (done : Array Int) : (room : Nat) → (angle : Float) →
    Except DirectiveError (Array Int)
  | 0, angle => if w.covers angle then .error .tableTooLong else .ok done
  | room + 1, angle =>
    if w.covers angle then entriesFrom (done.push (w.entry angle)) room (angle + w.step)
    else .ok done

/-- The entries of the table. -/
def entries : Except DirectiveError (Array Int) :=
  if w.angles == 0 then .error .zeroAngles
  else if w.step == 0 || signOf (w.last - w.first) * signOf w.step < 0 then
    .error (.endlessStep w.step w.last w.first)
  else w.entriesFrom #[] maxTableEntries w.first

end WaveTable

namespace SeriesDirective

open PassM

/-- A random number between two others. -/
def draw (min max : Int) : PassM Int := do
  let value := (← read).random (← get).drawn min max
  modify fun st => { st with drawn := (min, max) :: st.drawn }
  record .drawn
  return value

/-- The bytes of random numbers, behind some others. -/
def drawAll (min max : Int) (width : Nat) (bytes : Array UInt8) :
    (count : Nat) → PassM (Array UInt8)
  | 0 => return bytes
  | count + 1 => do
    let value ← draw min max
    drawAll min max width (bytes ++ intBytes value width) count

/-- A table of random numbers. -/
def randomTable (width : Nat) (countArg minArg maxArg : Text) : PassM Unit := do
  let count ← evalCount countArg
  if (← read).kind.isLabels then advance (count * width % addressSpace)
  else
    let min ← evalInt minArg
    let max ← evalInt maxArg
    if max < min then misuse (.emptyRange min max)
    else
      checkRange min width
      checkRange max width
      emit (← drawAll min max width #[] count).toList

/-- The bytes of the entries of a table. -/
def entryBytes (width : Nat) (entries : Array Int) : PassM (Array UInt8) :=
  entries.foldlM (fun bytes value => do
    checkRange value width
    return bytes ++ intBytes value width) #[]

/-- A table of a wave. -/
def waveTable (shape : WaveShape) (width : Nat) (args : List Text) (name : Text) : PassM Unit :=
  match args with
  | [angles, amplitude, first, last, step, offset] => do
    let w : WaveTable :=
      { shape := shape, angles := ← eval angles, amplitude := ← eval amplitude,
        first := ← eval first, last := ← eval last, step := ← eval step, offset := ← eval offset }
    let entries ← ofExcept .directive w.entries
    if (← read).kind.isLabels then advance (entries.size * width)
    else emit (← entryBytes width entries).toList
  | _ => misuse (.argumentCount name 6 6 args.length)

/-- Executes a directive that generates a table. -/
def run (d : SeriesDirective) (name rest : Text) : PassM Unit :=
  let args := Text.arguments rest
  match d, args with
  | .random width, [count, min, max] => randomTable width count min max
  | .random _, _ => misuse (.argumentCount name 3 3 args.length)
  | .wave shape width, _ => waveTable shape width args name

end SeriesDirective

/-- Gives the characters from one to another new bytes.  In the expression for a byte, a star in
braces stands for the character. -/
def mapCharacters (firstArg lastArg expr : Text) : PassM Unit := do
  let first ← PassM.evalInt firstArg
  let last ← PassM.evalInt lastArg
  if first < 0 ∨ 255 < first ∨ last < 0 ∨ 255 < last ∨ last < first then
    PassM.misuse (.badCharRange first last)
  else
    (List.range' first.toNat (last - first + 1).toNat).forM fun code => do
      let text := Text.replace "\x7b*\x7d".toList (toString code).toList expr
      let value ← PassM.evalInt text
      PassM.checkRange value 1
      modify fun st => { st with charMap := st.charMap.setIfInBounds code (lowByte value) }

/-- Executes the directive on the bytes of characters. -/
def runCharMap (name rest : Text) : PassM Unit :=
  match Text.arguments rest with
  | [char, expr] => mapCharacters char char expr
  | [first, last, expr] => mapCharacters first last expr
  | args => PassM.misuse (.argumentCount name 2 3 args.length)

end MacroAssembler
