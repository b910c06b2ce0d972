import MacroAssembler.CommandLine

/-!
# The program

The outer layer: it reads the files that the assembly asks for, one after the other, and writes
the ones that it produces.
-/

namespace MacroAssembler

/-- What is at a path of the real disk. -/
def readEntry (path : Text) : IO DiskEntry := do
  try
    return .file (← IO.FS.readBinFile (String.ofList path)).toList
  catch _ => return .missing

/-- The random numbers of the library's own generator. -/
def standardGenerator (seed : Nat) : Generator := fun drawn min max =>
  let next (bounds : Int × Int) (gen : StdGen) := randNat gen 0 (bounds.2 - bounds.1).toNat
  min + (next (min, max) (drawn.foldr (fun bounds gen => (next bounds gen).2) (mkStdGen seed))).1

/-- Random numbers that start anywhere, unless a seed says where. -/
def randomSource : IO RandomSource := do
  let draft ← IO.rand 0 stdRange.2
  let final ← IO.rand 0 stdRange.2
  let assemble ← IO.rand 0 stdRange.2
  return {
    seeded := standardGenerator
    entropy := fun
      | .draft => standardGenerator draft
      | .final => standardGenerator final
      | .assemble => standardGenerator assemble }

/-- Runs the program on the files read so far, and reads more of them until it is done. -/
partial def runOnDisk (random : RandomSource) (known : List (Text × DiskEntry))
    (args : List Text) : IO CommandLine.Outcome := do
  match CommandLine.run random ⟨fun path => (known.lookup path).getD .unread⟩ args with
  | .unread path => runOnDisk random ((path, ← readEntry path) :: known) args
  | outcome => return outcome

/-- Writes the files of an outcome, and tells the status of the program. -/
def finishOnDisk : CommandLine.Outcome → IO UInt32
  | .exit status lines => do
    lines.forM IO.eprintln
    return status.toUInt32
  | .write files lines => do
    lines.forM IO.eprintln
    try
      for (path, bytes) in files do
        IO.FS.writeBinFile (String.ofList path) ⟨bytes.toArray⟩
      return 0
    catch e =>
      IO.eprintln e.toString
      return 1
  | .unread _ => return 1

end MacroAssembler

/-- Runs the program with its arguments. -/
def main (args : List String) : IO UInt32 := do
  let random ← MacroAssembler.randomSource
  MacroAssembler.finishOnDisk (← MacroAssembler.runOnDisk random [] (args.map String.toList))
