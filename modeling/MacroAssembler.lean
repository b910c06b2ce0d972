import MacroAssembler.Main
import MacroAssembler.Proofs.Anticipation
import MacroAssembler.Proofs.Comments
import MacroAssembler.Proofs.ExchangedBytes
import MacroAssembler.Proofs.ExpansionDepth
import MacroAssembler.Proofs.ExpressionDepth
import MacroAssembler.Proofs.FieldLabels
import MacroAssembler.Proofs.LabelPositions
import MacroAssembler.Proofs.LongMacros
import MacroAssembler.Proofs.LoopEnds
import MacroAssembler.Proofs.MacroRefinement
import MacroAssembler.Proofs.NameCase
import MacroAssembler.Proofs.Overlaps
import MacroAssembler.Proofs.Packing
import MacroAssembler.Proofs.PastedValues
import MacroAssembler.Proofs.ProgramCounter
import MacroAssembler.Proofs.Repeatability
import MacroAssembler.Proofs.Strictness
import MacroAssembler.Proofs.TableScan
import MacroAssembler.Proofs.TableWriting
import MacroAssembler.Proofs.Termination
import MacroAssembler.Proofs.Unrolling
import MacroAssembler.Proofs.Variables
import MacroAssembler.Proofs.Z80Operands
