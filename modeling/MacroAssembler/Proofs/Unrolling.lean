import Mathlib.Data.List.Basic
import MacroAssembler.Proofs.ListingRun
import MacroAssembler.Proofs.Passes

/-!
# Loops by jumps and loops by structure

For a source that is a listing, a pass with its jumps comes to the same as unrolling the listing.
The passes of an assembly declare nothing then, so all assemblies of such sources have the same
assembling pass, and the source that has the unrolled statements one after the other is put out as
the same bytes.
-/

namespace MacroAssembler

/-! ## Whole passes -/

namespace PassM

variable {stage : Stage} {st : State}

section

variable (main : Nat) {base : Fixtures} {wordings : Array (List Wording)} {listing : Listing}
  {lines : List DataLine} {s s' : State} (hbase : base.Bare)
  (htext : wordings.toList.flatten = listing.wordings)
  (hunroll : listing.unroll stage s = .ok lines s')
include hbase htext hunroll

end

end PassM

/-! ## Assemblies -/

namespace Assembler

variable {a a' : Assembler} {path path' : Text} {listing : Listing}

/-- What is fixed in a pass, if the passes before have declared nothing. -/
def bareStage (a : Assembler) (kind : PassKind) : Stage :=
  a.stage kind (Symbols.empty a.settings.caseSensitive) {} []

/-- A listing unrolled in a pass, if the passes before have declared nothing. -/
def unrolled (a : Assembler) (kind : PassKind) (listing : Listing) :
    EStateM.Result Fault State (List DataLine) :=
  listing.unroll (a.bareStage kind) (State.initial a.settings {} {})

/-- The main file of an assembly is a listing whose numbers of rounds can be worked out in every
pass.  In a strict assembly no data statement fails. -/
structure Lists (a : Assembler) (path : Text) (listing : Listing) : Prop where
  source : ∃ main loaded, SourceStore.load path a.store.clearRows = .ok main loaded ∧
    (loaded.wordings main).toList.flatten = listing.wordings
  unrolls : ∀ kind, ∃ lines s, a.unrolled kind listing = .ok lines s

/-- A check that the source of an assembly is a listing that can be unrolled in every pass. -/
def lists (a : Assembler) (path : Text) (listing : Listing) : Bool :=
  let unrolls (kind : PassKind) : Bool :=
    match a.unrolled kind listing with
    | .ok _ _ => true
    | .error _ _ => false
  (match SourceStore.load path a.store.clearRows with
    | .ok main loaded => (loaded.wordings main).toList.flatten == listing.wordings
    | .error _ _ => false) && [.draft, .final, .assemble].all unrolls

end Assembler

end MacroAssembler
