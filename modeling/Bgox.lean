import Bgox.Lib.Run
import Bgox.Lib.Chain
import Bgox.Lib.Radix
import Bgox.Lib.Image
import Bgox.Lib.Traced
import Bgox.Lib.Buffer
import Bgox.Lib.Search
import Bgox.Lib.Loop
import Bgox.Paging
import Bgox.AddressSpace
import Bgox.Window
import Bgox.Elf
import Bgox.Strings
import Bgox.Mem
import Bgox.Tarfs
import Bgox.Files
import Bgox.Descriptors
import Bgox.Proofs.Strings
import Bgox.Proofs.Tables
import Bgox.Proofs.Mapping
import Bgox.Proofs.Stores
import Bgox.Proofs.Supply
import Bgox.Proofs.PageMap
import Bgox.Proofs.SpaceInv
import Bgox.Proofs.Launch
import Bgox.Proofs.KernelHalf
import Bgox.Proofs.ForkIsolation
import Bgox.Proofs.UserSpace
import Bgox.Proofs.Region
import Bgox.Lib.Interval
import Bgox.Proofs.Directory
import Bgox.Proofs.BulkMap
import Bgox.Proofs.Loader
import Bgox.Proofs.LoadImage
import Bgox.Proofs.LoadProgram
import Bgox.Proofs.Reject
import Bgox.Proofs.LoadFrame
import Bgox.Proofs.FreshFrames
import Bgox.Proofs.ForkCopy
import Bgox.Proofs.ForkStack
import Bgox.Proofs.FreeList
import Bgox.Proofs.Blocks
import Bgox.Proofs.OutOfMemory
import Bgox.Proofs.Release
import Bgox.Proofs.Descriptors
import Bgox.Vma
import Bgox.Proofs.Nodes
import Bgox.Proofs.Archive
import Bgox.Proofs.OpenFiles
import Bgox.Proofs.Reading
import Bgox.Proofs.Readline
import Bgox.Proofs.Cat
import Bgox.Keyboard
import Bgox.Proofs.Line
import Bgox.Proofs.TypeAhead
import Bgox.Kprintf
import Bgox.Printf
import Bgox.Proofs.Arrays
import Bgox.Proofs.Numerals
import Bgox.Proofs.Rows
import Bgox.Proofs.Kprintf
import Bgox.Proofs.Printf
import Bgox.Proofs.Format
import Bgox.Proofs.Output
import Bgox.Shell
import Bgox.Proofs.Shell
import Bgox.Proofs.Commands
import Bgox.Console
import Bgox.Proofs.Console
import Bgox.Process
import Bgox.TaskQueue
import Bgox.Proofs.Refine
import Bgox.Proofs.TaskInv
import Bgox.Proofs.Syscalls
import Bgox.Proofs.TaskCount
import Bgox.Proofs.TaskRun
import Bgox.Proofs.Pids
import Bgox.Proofs.Wait
import Bgox.Proofs.Sleep
import Bgox.Proofs.RoundRobin
import Bgox.Proofs.Kill
import Bgox.Proofs.Search
import Bgox.Pci
import Bgox.Proofs.Transfer
import Bgox.Proofs.Enumerate
import Bgox.Lib.Asm
import Bgox.Lib.Table
import Bgox.Lib.Round
import Bgox.Interrupts
import Bgox.Proofs.Frames
import Bgox.Switch
import Bgox.Proofs.Switch
import Bgox.Proofs.NewTask
import Bgox.Gates
import Bgox.Proofs.Gates
import Bgox.Pic
import Bgox.Proofs.Pic
import Bgox.Clock
import Bgox.Proofs.Clock
import Bgox.Dir
import Bgox.Proofs.Dir
import Bgox.Proofs.Fairness
import Bgox.Proofs.Simulate
import Bgox.Proofs.Ticker
import Bgox.Ps
import Bgox.Proofs.Ps
import Bgox.Proofs.OwnTables
import Bgox.Proofs.Isolation
import Bgox.Proofs.Bump
import Bgox.Proofs.Mmap
import Bgox.Proofs.Boot
import Bgox.Proofs.Window
import Bgox.Proofs.Session
