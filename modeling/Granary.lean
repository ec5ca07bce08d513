import Granary.Base.Iterate
import Granary.Base.TinySet
import Granary.Arch.Instruction
import Granary.Code.Fragment
import Granary.Assemble.AnalyzeFlagsUse
import Granary.Assemble.TrackVirtualRegs
import Granary.Base.ListHead
import Granary.Cfg.Trace
import Granary.Cfg.Factory
import Granary.Arch.Branch
import Granary.Assemble.LateMangle
import Granary.Base.Chain
import Granary.Base.Language
import Granary.Assemble.AddConnectingJumps
import Granary.Code.Compile
import Granary.Arch.Stack
import Granary.Assemble.AllocateSlots
import Granary.Assemble.BuildFragmentList
import Granary.Assemble.BuildFragmentList.Walk
import Granary.Os.Module
import Granary.Base.Run
import Granary.Index
import Granary.Index.Threads
import Granary.Base.Lock
import Granary.Base.DepthFirst
import Granary.Tool
import Granary.Arch.Call
import Granary.Arch.Edge
import Granary.Base.Format
import Granary.Base.Format.RoundTrip
import Granary.Base.Options
import Granary.Assemble.CompileInlineAssembly
import Granary.Assemble.CompileInlineAssembly.Grammar
import Granary.Assemble.CompileInlineAssembly.Reading
import Granary.Assemble.CompileInlineAssembly.RoundTrip
import Granary.Base.SpinLock
import Granary.Os.Lock
import Granary.Os.PageAllocator
import Granary.Assemble.TrackVirtualRegs.Liveness
import Granary.Assemble.LateMangle.Encode
import Granary.Arch.EarlyMangle
import Granary.Arch.EarlyMangle.Exec
import Granary.Arch.EarlyMangle.Enter
import Granary.Arch.EarlyMangle.Operands
import Granary.Arch.EarlyMangle.Effect
import Granary.Arch.EarlyMangle.StackPointer
import Granary.Base.Rounds
import Granary.Assemble.AllocateSlots.FrameSizes
import Granary.Assemble.AllocateSlots.FrameOffsets
import Granary.Assemble.BuildFragmentList.Executions
import Granary.Base.Words
import Granary.Base.Bytes
import Granary.Code.Register
import Granary.Base.Options.DocString
import Granary.Base.Options.Sessions
import Granary.Base.Format.Canonical
import Granary.Base.Format.Buffer
import Granary.Os.Logging
import Granary.Tool.CommaSeparated
import Granary.Tool.Sessions
import Granary.Base.SlabAllocator
import Granary.Base.SlabAllocator.Layout
import Granary.Base.SlabAllocator.Invariant
import Granary.Base.SlabAllocator.Operations
import Granary.Base.SlabAllocator.Safety
import Granary.Base.SlabAllocator.Destroy
import Granary.Os.Maps
import Granary.Os.Maps.Lexing
import Granary.Os.Maps.Lines
import Granary.Os.Maps.Modules
import Granary.Arch.Asm
import Granary.Arch.Util
import Granary.Clients.Watchpoints
import Granary.Base.Packing
import Granary.Clients.ShadowMemory
import Granary.Clients.ShadowMemory.Inline
import Granary.Base.SlabAllocator.Parameters
import Granary.MetaData
import Granary.Tool.Allocation
import Granary.Arch.Exception
import Granary.Assemble.ScheduleRegisters
import Granary.Assemble.ScheduleRegisters.Slots
import Granary.Clients.Watchpoints.TypeId
import Granary.Clients.Watchpoints.TypeId.Naming
import Granary.Code.Cache
import Granary.Index.Links
import Granary.Translate
import Granary.Base.BinarySearch
import Granary.Base.BitSet
import Granary.Base.DisjointSet
import Granary.Base.ListOfListHead
import Granary.Base.TinyMap
import Granary.Clients.Malcontent
import Granary.Clients.WrapFunc
import Granary.Os.ExceptionTable
import Granary.Assemble.AddEntryAndExitFragments
import Granary.Assemble.AddEntryAndExitFragments.Adding
import Granary.Assemble.AddEntryAndExitFragments.Executions
import Granary.Assemble.AddEntryAndExitFragments.Boundaries
import Granary.Assemble.AddEntryAndExitFragments.FlagZones
import Granary.Assemble.SaveAndRestoreFlags
import Granary.Assemble.SaveAndRestoreFlags.Crossings
import Granary.Assemble.SaveAndRestoreFlags.Transparent
import Granary.Context
import Granary.Entry
import Granary.Entry.Steps
import Granary.Entry.Runs
import Granary.Assemble.PartitionFragments
import Granary.Base.WordMemory
import Granary.Arch.Machine
import Granary.Arch.ContextSwitch
import Granary.Arch.ContextSwitch.DirectEdge
import Granary.Arch.ContextSwitch.Callback
import Granary.Arch.Trace
import Granary.Arch.Interrupt
