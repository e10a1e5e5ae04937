import FakeKernel.Lib.Chain
import FakeKernel.Lib.Dyadic
import FakeKernel.Mm.Buddy
import FakeKernel.Mm.FreeLists
import FakeKernel.Mm.Coalesce
import FakeKernel.Mm.Links
import FakeKernel.Mm.Runs
import FakeKernel.Lib.Bitfield
import FakeKernel.Mm.Mmdefs
import FakeKernel.Mm.Kmalloc
import FakeKernel.Mm.PageTable
import FakeKernel.Mm.Pte
import FakeKernel.Mm.Translate
import FakeKernel.Mm.Refine
import FakeKernel.Mm.Confined
import FakeKernel.Kernel.List
import FakeKernel.Kernel.Heap
import FakeKernel.Kernel.Vm
import FakeKernel.Kernel.Elf
import FakeKernel.Kernel.Machine
import FakeKernel.Kernel.Alloc
import FakeKernel.Kernel.LoadRun
import FakeKernel.Kernel.Image
import FakeKernel.Mm.MmInit
import FakeKernel.Kernel.LoadMap
import FakeKernel.Mm.Progress
import FakeKernel.Kernel.Serial
import FakeKernel.Kernel.Build
import FakeKernel.Kernel.Placement
import FakeKernel.Kernel.First
import FakeKernel.Kernel.Lookup
import FakeKernel.Kernel.Insertion
import FakeKernel.Mm.Ownership
import FakeKernel.Kernel.Unload
import FakeKernel.Kernel.Segment
import FakeKernel.Kernel.Growth
import FakeKernel.Kernel.InitStack
import FakeKernel.Mm.Demand
import FakeKernel.Mm.Faults
import FakeKernel.Kernel.Fork
import FakeKernel.Kernel.ArgLayout
import FakeKernel.Kernel.Call
import FakeKernel.Kernel.Execve
import FakeKernel.Kernel.Refusal
import FakeKernel.Kernel.ForkCall
import FakeKernel.Kernel.Family
import FakeKernel.Kernel.Relaunch
import FakeKernel.Kernel.Context
import FakeKernel.Kernel.Rights
import FakeKernel.Kernel.Leak
import FakeKernel.Lib.Digits
import FakeKernel.Kernel.Printf
import FakeKernel.Kernel.Format
import FakeKernel.Kernel.StringCopy
import FakeKernel.User.Stdio
import FakeKernel.Kernel.CreateFails
import FakeKernel.Kernel.ListBytes
import FakeKernel.Lib.Private
import FakeKernel.Lib.Cache
import FakeKernel.Kernel.View
import FakeKernel.Kernel.Orderly
import FakeKernel.Kernel.Inherit
import FakeKernel.Kernel.Accounts
import FakeKernel.Kernel.Tlb
import FakeKernel.Lib.Rv64
import FakeKernel.Kernel.Assembly
import FakeKernel.Kernel.Answers
import FakeKernel.Kernel.GrowthDemand
import FakeKernel.Kernel.Progress
import FakeKernel.Kernel.Console
import FakeKernel.Kernel.Fitted
import FakeKernel.Kernel.Sizes
import FakeKernel.Kernel.KernelHalf
