import LaTTe.Gc.Mark.Assertions
import LaTTe.Gc.Mark.LiveObjects
import LaTTe.Gc.Mark.StackBounds
import LaTTe.Gc.Manual.Requests
import LaTTe.Gc.Regions.Limit
import LaTTe.Gc.Small.Agreement
import LaTTe.Gc.Small.Conservative
import LaTTe.Gc.Small.Objects
import LaTTe.Classes.Attended
import LaTTe.Classes.Speculation
import LaTTe.Strings.StringInterning
import LaTTe.Strings.Utf8Interning
import LaTTe.Threads.Watched
import LaTTe.Threads.Monitor
import LaTTe.Translator.TypeSoundness
import LaTTe.Translator.BoundCheck
import LaTTe.Translator.Finally.Returns
import LaTTe.Sequences.Long
import LaTTe.Sequences.Monitor
import LaTTe.Sequences.Division
import LaTTe.Translator.WidePrefix
import LaTTe.Translator.ImmediateProducers
import LaTTe.Switches.Tableswitch
import LaTTe.Registers.ExceptionReturn
import LaTTe.Registers.HandlerEntry
import LaTTe.Bytecodes.Run
import LaTTe.Bytecodes.Flag
import LaTTe.Translator.MainFlow
import LaTTe.Gc.Regions.Table
import LaTTe.Gc.Regions.Reallocation
import LaTTe.Gc.Regions.Arrays
import LaTTe.Gc.Regions.SmallAccounting
import LaTTe.Gc.Large.Run
import LaTTe.Strings.Comparison
import LaTTe.Translator.ExceptionInfo
import LaTTe.Strings.Probing
import LaTTe.Classes.ConstantChecks
import LaTTe.Threads.AlarmList
import LaTTe.Threads.Waiting
import LaTTe.Threads.Waiters
import LaTTe.Classes.Descriptor
import LaTTe.Sequences.Arguments
import LaTTe.Data.Layout
import LaTTe.Data.Reversal
import LaTTe.Classes.Fields
import LaTTe.Classes.FieldLayout
import LaTTe.Translator.CellNode
import LaTTe.Gc.Manual.SizeClass
import LaTTe.Gc.Small.ObjectSort
import LaTTe.Threads.ContextTable
import LaTTe.Translator.SessionBlocks
import LaTTe.Translator.ExpressionTable
import LaTTe.Translator.GraphEdit
import LaTTe.Translator.GraphEditKept
import LaTTe.Data.Circular
import LaTTe.Translator.Loops.Detect
import LaTTe.Translator.Loops.Chains
import LaTTe.Translator.Loops.Reaching
import LaTTe.Translator.Loops.Origin
import LaTTe.Translator.Loops.OriginValue
import LaTTe.Translator.Loops.MemTables
import LaTTe.Translator.Loops.TablesFit
import LaTTe.Translator.Loops.TablesRoom
import LaTTe.Data.Arrays
import LaTTe.Registers.InMemory
import LaTTe.Registers.Spread
import LaTTe.Registers.Represents
import LaTTe.Registers.MemoryOperations
import LaTTe.Registers.Clones
import LaTTe.Registers.Statuses
import LaTTe.Gc.Manual.Blocks
import LaTTe.Classes.InclusionCode
import LaTTe.Threads.RunQueueSafety
