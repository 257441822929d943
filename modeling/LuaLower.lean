import LuaLower.Compile
import LuaLower.Listing
import LuaLower.Session.Workspace
import LuaLower.Proofs.Outcome
import LuaLower.Proofs.Instruction.Operands
import LuaLower.Proofs.Pool
import LuaLower.Proofs.OpenFunction.Growth
import LuaLower.Proofs.OpenFunction.Holdings
import LuaLower.Proofs.OpenFunction.Steps
import LuaLower.Proofs.OpenFunction.Building
import LuaLower.Proofs.OpenFunction.Placement
import LuaLower.Proofs.Lowering.Binary
import LuaLower.Proofs.Lowering.Target
import LuaLower.Proofs.Lowering.Parts
import LuaLower.Proofs.Session.Extension
import LuaLower.Proofs.Session.Resolution
import LuaLower.Proofs.Session.Functions
import LuaLower.Proofs.Lowering.Constructs
import LuaLower.Proofs.Lowering.Body
import LuaLower.Proofs.RegisterDiscipline
import LuaLower.Proofs.OperandValidity
import LuaLower.Proofs.Semantics.Machine
import LuaLower.Proofs.Semantics.Evaluation
import LuaLower.Proofs.Semantics.Simulation
import LuaLower.Proofs.Semantics.Operators
import LuaLower.Proofs.Semantics.Expressions
import LuaLower.Proofs.Semantics.Statements
import LuaLower.Proofs.SemanticPreservation
import LuaLower.Proofs.Instruction.Packing
import LuaLower.Proofs.Chunk.Loader
import LuaLower.Proofs.ChunkRoundTrip
import LuaLower.Proofs.Session.Linking
import LuaLower.Proofs.NearestVariable
import LuaLower.Proofs.Syntax.Subset
import LuaLower.Proofs.Lowering.Refusals
import LuaLower.Proofs.AcceptedSubset
import LuaLower.Proofs.Instruction.Blocks
import LuaLower.Proofs.OpenFunction.Emission
import LuaLower.Proofs.LiveRegisters
import LuaLower.Proofs.Instruction.Flow
import LuaLower.Proofs.ControlFlow
import LuaLower.Proofs.OpenFunction.Variables
import LuaLower.Proofs.Session.Steadiness
import LuaLower.Proofs.Lowering.Plan
import LuaLower.Proofs.Lowering.TaskParts
import LuaLower.Proofs.Lowering.Visits
import LuaLower.Proofs.DeclaredVariables
import LuaLower.Proofs.BlockScope
import LuaLower.Proofs.Instruction.Dataflow
import LuaLower.Proofs.Supply.Basic
import LuaLower.Proofs.Supply.Pieces
import LuaLower.Proofs.Supply.Operators
import LuaLower.Proofs.Supply.Session
import LuaLower.Proofs.Supply.Functions
import LuaLower.Proofs.Supply.Constructs
import LuaLower.Proofs.Supply.Body
import LuaLower.Proofs.WrittenBeforeRead
import LuaLower.Proofs.ConstantLocals
import LuaLower.Proofs.WordFields
import LuaLower.Proofs.KnownGlobals
import LuaLower.Proofs.ExponentForm
import LuaLower.Proofs.SizeByte
import LuaLower.Proofs.NumberLiterals
import LuaLower.Proofs.Lowering.Accretion
import LuaLower.Proofs.Recovery
import LuaLower.Proofs.Writability
import LuaLower.Proofs.OpenFunction.Continuation
import LuaLower.Proofs.Lowering.Continuation
import LuaLower.Proofs.Lowering.Origins
import LuaLower.Proofs.Lowering.Operands
import LuaLower.Proofs.CallLayout
import LuaLower.Proofs.EvaluationOrder
import LuaLower.Proofs.WaitingOperands
import LuaLower.Proofs.Semantics.Tables
import LuaLower.Proofs.ArrayLiterals
import LuaLower.Proofs.WriteFailures
import LuaLower.Proofs.Lowering.Reachability
import LuaLower.Proofs.Stripping
import LuaLower.Proofs.AssignedPlaces
import LuaLower.Proofs.CompoundAssignment
import LuaLower.Proofs.DistinctConstants
import LuaLower.Proofs.ListingLines
