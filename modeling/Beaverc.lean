import Beaverc.Ast
import Beaverc.Base.DepthFirst
import Beaverc.Base.Process
import Beaverc.Base.Results
import Beaverc.Base.Tables
import Beaverc.Base.X64
import Beaverc.Bytecode
import Beaverc.CallingConvention
import Beaverc.Changes
import Beaverc.Collection
import Beaverc.Compiler
import Beaverc.ControlFlow
import Beaverc.DeadVariables
import Beaverc.Discipline
import Beaverc.Emitted
import Beaverc.Endings
import Beaverc.Failures
import Beaverc.FastCollection
import Beaverc.FullCollection
import Beaverc.Generations
import Beaverc.Heap
import Beaverc.Interpreter
import Beaverc.Ir
import Beaverc.IrMachine
import Beaverc.Labels
import Beaverc.Loops
import Beaverc.MachineArithmetic
import Beaverc.Operands
import Beaverc.Passes
import Beaverc.RegisterAllocation
import Beaverc.Roots
import Beaverc.Scanner
import Beaverc.StackDiscipline
import Beaverc.Steps
import Beaverc.TopLevel
import Beaverc.Translation
import Beaverc.Twin
import Beaverc.Value
import Beaverc.Visits
import Beaverc.WellFormed
import Beaverc.World
import Beaverc.Accounting
import Beaverc.EvaluationOrder
import Beaverc.TextFormat
import Beaverc.RoundTrip
import Beaverc.Reads
import Beaverc.Base.Evaluations
import Beaverc.BasicInterpreter
import Beaverc.OperandsOnce
import Beaverc.VariableLookup
import Beaverc.Returns
import Beaverc.DefinedTemps
import Beaverc.SingleUse
import Beaverc.LinearScan
import Beaverc.ConstantHints
import Beaverc.OptimizerErrors
import Beaverc.ConstantFolding
import Beaverc.CompilationOrder
import Beaverc.OrderedMap
import Beaverc.ThrashGuard
import Beaverc.GenerationCounter
import Beaverc.Base.LongestMatch
import Beaverc.SourceLexer
import Beaverc.StringEscapes
import Beaverc.Layout
import Beaverc.ShortJumps
import Beaverc.Checker
import Beaverc.LiveRanges
import Beaverc.StraightTemps
import Beaverc.StringTrees
import Beaverc.PrettyPrinter
import Beaverc.SourceGrammar
import Beaverc.PrettyRoundTrip
import Beaverc.PrintedTokens
import Beaverc.Prologue
import Beaverc.ParameterPassing
import Beaverc.Bookkeeping
import Beaverc.GlobalVariables
import Beaverc.Records
import Beaverc.TypeHints
import Beaverc.Retyping
import Beaverc.TypeSoundness
import Beaverc.TypedTemps
import Beaverc.Conflicts
import Beaverc.Base.Behaviors
import Beaverc.Semantics
import Beaverc.CompiledExpressions
import Beaverc.CompilerCorrectness
import Beaverc.Base.Calls
import Beaverc.FunctionValues
import Beaverc.WholePrograms
import Beaverc.Base.Observation
import Beaverc.Relocation
import Beaverc.FoldedRuns
import Beaverc.ObsoleteTemps
import Beaverc.RemovedTemps
import Beaverc.OptimizedRuns
import Beaverc.Base.BigStep
import Beaverc.FromSource
import Beaverc.Tiers
import Beaverc.Base.Growth
import Beaverc.References
import Beaverc.Base.Raising
import Beaverc.Orders
