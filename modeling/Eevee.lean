import Eevee.Core.Logic
import Eevee.Core.Alu
import Eevee.Core.Canonical
import Eevee.Core.Packed
import Eevee.Core.Display
import Eevee.Core.Resizing
import Eevee.Core.ResizedOperands
import Eevee.Core.SizedLiterals
import Eevee.Lib.Binary
import Eevee.Core.Numeric
import Eevee.Ir.Inst
import Eevee.Ir.XSound
import Eevee.Ir.Shifts
import Eevee.Ir.Format
import Eevee.Ir.Strings
import Eevee.Ir.Selects
import Eevee.Ast.Syntax
import Eevee.Const.Evaluators
import Eevee.Const.Agreement
import Eevee.Lib.Folds
import Eevee.Lib.InertialLine
import Eevee.Lib.Readable
import Eevee.Lib.SwapScan
import Eevee.Lib.Transition
import Eevee.Sched.Nets
import Eevee.Sched.Resolution
import Eevee.Sched.ResolutionOrder.Intervals
import Eevee.Sched.ResolutionOrder.Decided
import Eevee.Sched.ResolutionOrder
import Eevee.Sched.Scheduler
import Eevee.Sched.Simulation
import Eevee.Sched.Frames
import Eevee.Sched.Wheel
import Eevee.Sched.Clock
import Eevee.Sched.Slots
import Eevee.Sched.XSoundness
import Eevee.Sched.Layout
import Eevee.Sched.Stages
import Eevee.Sched.Drivers
import Eevee.Sched.DriverUpdates
import Eevee.Sched.DriverRequests
import Eevee.Sched.Deadlines
import Eevee.Sched.Wakeup
import Eevee.Sched.Regions
import Eevee.Sched.RuntimeWaiters
import Eevee.Sched.EdgeWakeups
import Eevee.Sched.ForkJoin
import Eevee.Sched.Observers
import Eevee.Sched.Registrations
import Eevee.Sched.Alarms
import Eevee.Sched.NetLines
import Eevee.Sched.NetCoherence
import Eevee.Sched.BitSlices
import Eevee.Sched.DelayForms
import Eevee.Sched.Memories
import Eevee.Sched.VariableWrites
import Eevee.Lib.Machine
import Eevee.Ir.Values
import Eevee.Ir.Builder
import Eevee.Ir.Emission
import Eevee.Ir.Interp
import Eevee.Ir.Objects
import Eevee.Ir.Locations
import Eevee.Ir.Collections
import Eevee.Ir.Iteration
import Eevee.Ir.Keys
import Eevee.Ast.Stmts
import Eevee.Elab.Generator
import Eevee.Elab.Scoping
import Eevee.Elab.Evaluation
import Eevee.Elab.ExprCode
import Eevee.Elab.StmtCode
import Eevee.Elab.ControlFlow
import Eevee.Elab.Callable
import Eevee.Elab.ReadSets
import Eevee.Elab.Processes
import Eevee.Elab.Continuous
import Eevee.Elab.Quiescence
import Eevee.Elab.Widths
import Eevee.Elab.Widening
import Eevee.Elab.Narrowing
import Eevee.Elab.ConstantFolding
import Eevee.Elab.CaseEquality
import Eevee.Elab.Casts
import Eevee.Lib.Tables
import Eevee.Lib.Cursor
import Eevee.Classes.Declarations
import Eevee.Classes.Layout
import Eevee.Classes.Dispatch
import Eevee.Ast.Classes
import Eevee.Classes.Specialization
import Eevee.Classes.Defaults
import Eevee.Classes.Occurrences
import Eevee.Classes.Substitution
import Eevee.Classes.Formals
import Eevee.Classes.Traversal
import Eevee.Classes.Mangling
import Eevee.Classes.Termination
import Eevee.Elab.Names
import Eevee.Elab.Selection
import Eevee.Elab.Targets
import Eevee.Elab.Ranges
import Eevee.Elab.Resolution
import Eevee.Elab.Assignments
import Eevee.Elab.Stores
import Eevee.Elab.Blocking
import Eevee.Lib.CallStack
import Eevee.Ir.Calls
import Eevee.Ir.PendingUpdates
import Eevee.Elab.CallSites
import Eevee.Ast.Modules
import Eevee.Elab.Hierarchy
import Eevee.Elab.Instantiation
import Eevee.Fe.Scanning
import Eevee.Fe.Splitting
import Eevee.Fe.Preprocess
import Eevee.Fe.Conditionals
import Eevee.Fe.Joining
import Eevee.Fe.Literals
import Eevee.Fe.Opacity
import Eevee.Fe.Prefixes
import Eevee.Fe.MacroCalls
import Eevee.Fe.LineEnds
import Eevee.Fe.LinePositions
import Eevee.Lib.Ancestry
import Eevee.Lib.References
import Eevee.Ir.Instances
import Eevee.Ir.Activations
import Eevee.Lib.Sleeper
import Eevee.Elab.EventControl
import Eevee.Elab.Conditions
import Eevee.Elab.WaitCondition
import Eevee.Elab.GenerateScopes
import Eevee.Lib.Loops
import Eevee.Elab.GenerateLoops
import Eevee.Elab.Parameters
import Eevee.Classes.Fields
import Eevee.Classes.Instances
