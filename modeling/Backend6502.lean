import Backend6502.Command.Folder
import Backend6502.Main
import Backend6502.Proofs.BareBodies
import Backend6502.Proofs.CompiledFunctions
import Backend6502.Proofs.Displacements
import Backend6502.Proofs.IdleLoads
import Backend6502.Proofs.LiveAccumulator
import Backend6502.Proofs.OperandTexts
import Backend6502.Proofs.Pauses
import Backend6502.Proofs.PointerReads
import Backend6502.Proofs.PostfixComparisons
import Backend6502.Proofs.SignedComparisons
import Backend6502.Proofs.SingleEvaluation
import Backend6502.Proofs.SourceLines
import Backend6502.Proofs.StructuredFunctions
import Backend6502.Proofs.SwitchStatements
import Backend6502.Proofs.SymbolTables
import Backend6502.Proofs.TrackedFlags
import Backend6502.Proofs.UpdatesInPlace
import Backend6502.Proofs.VariableOperands
import Backend6502.Proofs.WordUpdates
