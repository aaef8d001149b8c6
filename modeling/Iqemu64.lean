import Iqemu64.ByteMemory
import Iqemu64.MemMoves
import Iqemu64.X64
import Iqemu64.StepChain
import Iqemu64.FfiType
import Iqemu64.ArgInfo
import Iqemu64.AaPrepCif
import Iqemu64.XxPrepCif
import Iqemu64.FlatVector
import Iqemu64.FlatClasses
import Iqemu64.Signature
import Iqemu64.Layout
import Iqemu64.ArgViews
import Iqemu64.DyEntry
import Iqemu64.DyDelivery
import Iqemu64.A2xEntry
import Iqemu64.A2xRun
import Iqemu64.A2xArg
import Iqemu64.A2xSite
import Iqemu64.A2xSteps
import Iqemu64.A2xConcat
import Iqemu64.A2xDelivery
import Iqemu64.A2xCall
import Iqemu64.Transfer
import Iqemu64.X2aEntry
import Iqemu64.X2aSite
import Iqemu64.Returns
import Iqemu64.DyExit
import Iqemu64.X2aArg
import Iqemu64.X2aSplit
import Iqemu64.X2aDelivery
import Iqemu64.X2aCall
import Iqemu64.X2aExit
import Iqemu64.X2aReturn
import Iqemu64.AlignedAccess
import Iqemu64.A2xExit
import Iqemu64.StackBalance
import Iqemu64.GuestStack
import Iqemu64.CodeGen
import Iqemu64.CodeGenFrame
import Iqemu64.Handled
import Iqemu64.BlockFrame
import Iqemu64.CodeCache
import Iqemu64.HostTarget
import Iqemu64.MethodLookup
import Iqemu64.MsgSend
import Iqemu64.CallbackTypes
import Iqemu64.SearchData
import Iqemu64.Setjmp
import Iqemu64.PageFlags
import Iqemu64.TbTables
import Iqemu64.PageLists
import Iqemu64.TargetMmap
import Iqemu64.StaleBlocks
import Iqemu64.RegisteredHandlers
import Iqemu64.JumpChain
import Iqemu64.SearchTree
import Iqemu64.TcgTree
import Iqemu64.ExclusiveSections
import Iqemu64.CString
import Iqemu64.TypesParser
import Iqemu64.TypeEncoding
import Iqemu64.TypeRoundTrip
import Iqemu64.FmtstrParser
import Iqemu64.FormatString
import Iqemu64.FormatTypes
import Iqemu64.PrintfTypes
import Iqemu64.PrintfValues
import Iqemu64.AcceptedFormats
import Iqemu64.ValistCalls
import Iqemu64.PendingSignals
import Iqemu64.SignalFrame
import Iqemu64.SignalReturn
import Iqemu64.PackedSlots
import Iqemu64.Qht
import Iqemu64.QhtChains
import Iqemu64.QhtSet
import Iqemu64.JumpCache
import Iqemu64.PublishedBlocks
import Iqemu64.ThreadSuspend
import Iqemu64.ExclusiveRequests
import Iqemu64.FairRuns
import Iqemu64.ExclusiveGranted
import Iqemu64.BlockSignature
import Iqemu64.UnionTypes
import Iqemu64.TypeTree
import Iqemu64.HfaTypes
import Iqemu64.NestedClasses
import Iqemu64.ParsedTypes
import Iqemu64.AaLayout
import Iqemu64.XxLayout
import Iqemu64.X64Writes
import Iqemu64.X2aWrites
import Iqemu64.X2aFootprint
import Iqemu64.TailQueue
import Iqemu64.CallFrames
import Iqemu64.AtomicStep
import Iqemu64.TcgOps
import Iqemu64.TcgExec
import Iqemu64.Liveness
import Iqemu64.LivenessSim
import Iqemu64.TcgInt
import Iqemu64.LivenessRuns
import Iqemu64.SectionCalls
import Iqemu64.SymbolLookup
import Iqemu64.BlockMarks
import Iqemu64.VariadicCodes
import Iqemu64.RangeInvalidation
import Iqemu64.RegionWalk
import Iqemu64.FakeNames
import Iqemu64.HostPages
import Iqemu64.BlockRecords
import Iqemu64.SpillSlots
import Iqemu64.ThreadStates
import Iqemu64.WriteProtection
