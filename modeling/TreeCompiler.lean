import TreeCompiler.Code.Wire
import TreeCompiler.Main
import TreeCompiler.Proofs.Asm.Arguments
import TreeCompiler.Proofs.Asm.ArrayContents
import TreeCompiler.Proofs.Asm.Closed
import TreeCompiler.Proofs.Asm.Comments
import TreeCompiler.Proofs.Asm.Data
import TreeCompiler.Proofs.Asm.Discipline
import TreeCompiler.Proofs.Asm.Layout
import TreeCompiler.Proofs.Asm.Restarts
import TreeCompiler.Proofs.Asm.Strings
import TreeCompiler.Proofs.Asm.TailPosition
import TreeCompiler.Proofs.Code.Structure
import TreeCompiler.Proofs.Command.Definitions
import TreeCompiler.Proofs.Lower.Acceptance
import TreeCompiler.Proofs.Lower.Failures
import TreeCompiler.Proofs.Lower.Initialization
import TreeCompiler.Proofs.Lower.Separation
import TreeCompiler.Proofs.Storage
import TreeCompiler.Proofs.Tree.FieldOrder
import TreeCompiler.Proofs.Tree.Unambiguous
import TreeCompiler.Proofs.Wire
