import Ia32Backend.Asm.Att
import Ia32Backend.Asm.Instr
import Ia32Backend.Asm.Listing
import Ia32Backend.Code.Expr
import Ia32Backend.Code.Layout
import Ia32Backend.Code.Stmt
import Ia32Backend.Code.Unit
import Ia32Backend.Config
import Ia32Backend.Decimal.Binary32
import Ia32Backend.Decimal.Shortest
import Ia32Backend.Draft
import Ia32Backend.Fault
import Ia32Backend.Frames
import Ia32Backend.Frames.History
import Ia32Backend.Ident
import Ia32Backend.StringPool
import Ia32Backend.SymbolTable
import Ia32Backend.Text.CodePointSet
import Ia32Backend.Text.GraphemeExtend
import Ia32Backend.Text.Quoted
import Ia32Backend.Text.Unprintable
import Ia32Backend.Tree
import Ia32Backend.Tree.Outline
import Ia32Backend.ValueType
import Ia32Backend.Frames.Checked
import Ia32Backend.Proofs.Accepted
import Ia32Backend.Proofs.AttReader
import Ia32Backend.Proofs.BranchLabels
import Ia32Backend.Proofs.CallFree
import Ia32Backend.Proofs.CharacterUse
import Ia32Backend.Proofs.Checks
import Ia32Backend.Proofs.CompiledApart
import Ia32Backend.Proofs.EntryFunction
import Ia32Backend.Proofs.ExpressionCode
import Ia32Backend.Proofs.FirstFault
import Ia32Backend.Proofs.FloatUses
import Ia32Backend.Proofs.ForeignVariables
import Ia32Backend.Proofs.FrameArithmetic
import Ia32Backend.Proofs.FrameHistory
import Ia32Backend.Proofs.FrameInvariant
import Ia32Backend.Proofs.FrameSafety
import Ia32Backend.Proofs.FrameWords
import Ia32Backend.Proofs.FunctionLabels
import Ia32Backend.Proofs.Inline
import Ia32Backend.Proofs.LabelIntegrity
import Ia32Backend.Proofs.LiveSlots
import Ia32Backend.Proofs.Machine.Alone
import Ia32Backend.Proofs.Machine.Arithmetic
import Ia32Backend.Proofs.Machine.Cpu
import Ia32Backend.Proofs.Machine.Effects
import Ia32Backend.Proofs.Machine.Image
import Ia32Backend.Proofs.Machine.Memory
import Ia32Backend.Proofs.Meaning.BigStep
import Ia32Backend.Proofs.Meaning.Character
import Ia32Backend.Proofs.Meaning.Encoding
import Ia32Backend.Proofs.Meaning.Expr
import Ia32Backend.Proofs.Meaning.Run
import Ia32Backend.Proofs.Meaning.Truth
import Ia32Backend.Proofs.Meaning.Unit
import Ia32Backend.Proofs.Meaning.Valuation
import Ia32Backend.Proofs.Meaning.Value
import Ia32Backend.Proofs.NestedFrames
import Ia32Backend.Proofs.NumberedNames
import Ia32Backend.Proofs.OutlineFaithful
import Ia32Backend.Proofs.OutlineIndent
import Ia32Backend.Proofs.OutlineLines
import Ia32Backend.Proofs.OutlineParts
import Ia32Backend.Proofs.ParameterSlots
import Ia32Backend.Proofs.PooledStrings
import Ia32Backend.Proofs.Preservation
import Ia32Backend.Proofs.QuotedReader
import Ia32Backend.Proofs.Reached
import Ia32Backend.Proofs.Readings
import Ia32Backend.Proofs.Renumbering
import Ia32Backend.Proofs.ReservedBytes
import Ia32Backend.Proofs.SameCode
import Ia32Backend.Proofs.SavedOperand
import Ia32Backend.Proofs.Scope
import Ia32Backend.Proofs.Simulation.Branches
import Ia32Backend.Proofs.Simulation.Entry
import Ia32Backend.Proofs.Simulation.Evaluator
import Ia32Backend.Proofs.Simulation.Expr
import Ia32Backend.Proofs.Simulation.Frame
import Ia32Backend.Proofs.Simulation.Function
import Ia32Backend.Proofs.Simulation.Ground
import Ia32Backend.Proofs.Simulation.Logic
import Ia32Backend.Proofs.Simulation.Operators
import Ia32Backend.Proofs.Simulation.Site
import Ia32Backend.Proofs.Simulation.Stmt
import Ia32Backend.Proofs.Simulation.Unit
import Ia32Backend.Proofs.Simulation.Valuation
import Ia32Backend.Proofs.SlotAddress
import Ia32Backend.Proofs.StackDepth
import Ia32Backend.Proofs.StatementCode
import Ia32Backend.Proofs.TextDecoding
import Ia32Backend.Proofs.TouchedBlocks
import Ia32Backend.Proofs.TreeExprs
import Ia32Backend.Proofs.TreeForm
import Ia32Backend.Proofs.TruthEquality
import Ia32Backend.Proofs.TruthValues
import Ia32Backend.Proofs.UnitFunctions
import Ia32Backend.Proofs.Uses
import Ia32Backend.Proofs.VisibleTree
import Ia32Backend.Proofs.ZeroByte
