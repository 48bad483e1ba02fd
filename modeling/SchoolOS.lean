import SchoolOS.Lib.Loop
import SchoolOS.Lib.CString
import SchoolOS.Lib.Walk
import SchoolOS.Lib.LinkedList
import SchoolOS.Lib.Stdio
import SchoolOS.Lib.InsertionSort
import SchoolOS.Lib.Numerals
import SchoolOS.Lib.Words
import SchoolOS.Lib.Occurrences
import SchoolOS.Lib.UnitSchedule
import SchoolOS.Lib.MaxFlow
import SchoolOS.Lib.Srpt
import SchoolOS.Lib.CArray
import SchoolOS.Lib.Paging
import SchoolOS.Lib.Competitive
import SchoolOS.Lib.Recency
import SchoolOS.Lib.SecondChance
import SchoolOS.Lib.SecondChanceFaults
import SchoolOS.Lib.EventSchedule
import SchoolOS.Lib.Turns
import SchoolOS.Lib.Runs
import SchoolOS.Lib.Simulation
import SchoolOS.Lib.Bytes
import SchoolOS.Lib.Ownership
import SchoolOS.Fat.Defs
import SchoolOS.Fat.Directory
import SchoolOS.Fat.Invariant
import SchoolOS.Fat.Operations
import SchoolOS.Fat.Write
import SchoolOS.Fat.FileMap
import SchoolOS.Fat.Refinement
import SchoolOS.Fat.Append
import SchoolOS.Fat.Persist
import SchoolOS.Fat.RoundTrip
import SchoolOS.Fat.Process
import SchoolOS.Fat.Names
import SchoolOS.Fat.Reclaim
import SchoolOS.Fat.FailedSave
import SchoolOS.Fat.Commands
import SchoolOS.Fat.History
import SchoolOS.CpuScheduler.Defs
import SchoolOS.CpuScheduler.Invariant
import SchoolOS.CpuScheduler.Valid
import SchoolOS.CpuScheduler.NonPreemptive
import SchoolOS.CpuScheduler.Srtf
import SchoolOS.CpuScheduler.RoundRobin
import SchoolOS.CpuScheduler.Schedulers
import SchoolOS.CpuScheduler.EqualArrivals
import SchoolOS.CpuScheduler.LongSlice
import SchoolOS.CpuScheduler.LineOrder
import SchoolOS.CpuScheduler.Events
import SchoolOS.CpuScheduler.QueueBounds
import SchoolOS.CpuScheduler.Fairness
import SchoolOS.CpuScheduler.Leftover
import SchoolOS.CpuScheduler.SrtfSwitches
import SchoolOS.CpuScheduler.MaxTurnaround
import SchoolOS.CpuScheduler.Switches
import SchoolOS.CpuScheduler.Utilization
import SchoolOS.CpuScheduler.Termination
import SchoolOS.CpuScheduler.InitList
import SchoolOS.PageReplacement.DemandPaging
import SchoolOS.PageReplacement.Lru
import SchoolOS.PageReplacement.Bounds
import SchoolOS.PageReplacement.Competitive
import SchoolOS.PageReplacement.Input
import SchoolOS.Ftrace.Sessions
import SchoolOS.Ftrace.Isolation
import SchoolOS.Ftrace.Interleaving
import SchoolOS.Hooks
import SchoolOS.IoTrace
import SchoolOS.ProcessTracer.Tree
import SchoolOS.FileVarea.Reports
import SchoolOS.ProcInfo.Reads
import SchoolOS.ProcInfo.Write
import SchoolOS.ProcInfo.Rows
import SchoolOS.ProcInfo.Sessions
import SchoolOS.ProcInfo.Growth
import SchoolOS.ForkThread.Agreement
import SchoolOS.ForkThread.Sessions
