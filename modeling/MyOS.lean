import MyOS.Lib.Bitmap
import MyOS.Lib.Buffer
import MyOS.Lib.Bytes
import MyOS.Lib.Outcome
import MyOS.Lib.Loop
import MyOS.Lib.Numeral
import MyOS.Lib.Ring
import MyOS.Lib.Tiling
import MyOS.Lib.Trace
import MyOS.Lib.Walk
import MyOS.Lib.Word
import MyOS.Heap.Model
import MyOS.Heap.Refine
import MyOS.Heap.Invariant
import MyOS.Heap.Contract
import MyOS.Heap.Sessions
import MyOS.Heap.FirstFit
import MyOS.Heap.DoubleFree
import MyOS.Heap.Preemption
import MyOS.Drivers.Ata
import MyOS.Drivers.AtaPorts
import MyOS.Drivers.Keyboard
import MyOS.Drivers.Print
import MyOS.Drivers.Serial
import MyOS.Drivers.Screen
import MyOS.Drivers.Timer
import MyOS.Fat32.Model
import MyOS.Fat32.Image
import MyOS.Fat32.Edit
import MyOS.Fat32.Disk
import MyOS.Fat32.Certificate
import MyOS.Fat32.Dirent
import MyOS.Fat32.Alloc
import MyOS.Fat32.Scan
import MyOS.Fat32.Operations
import MyOS.Fat32.Integrity
import MyOS.Fat32.Acts
import MyOS.Fat32.Polls
import MyOS.Fat32.Read
import MyOS.Fat32.Failure
import MyOS.Fat32.Links
import MyOS.Fat32.Branches
import MyOS.Fat32.Spares
import MyOS.Fat32.Room
import MyOS.Fat32.Faults
import MyOS.Fat32.Requests
import MyOS.Fat32.Mirror
import MyOS.Fat32.Cache
import MyOS.Fat32.Cut
import MyOS.Fat32.Unreliable
import MyOS.Fat32.Duplicates
import MyOS.Fat32.Names
import MyOS.Fat32.Lookup
import MyOS.Fat32.Files
import MyOS.Fat32.Service
import MyOS.Fat32.Table
import MyOS.Fat32.Loops
import MyOS.Fat32.Mount
import MyOS.Fat32.Remount
import MyOS.Fat32.WriteOrder
import MyOS.Memory.Pmm
import MyOS.Memory.Frames
import MyOS.Memory.MemoryMap
import MyOS.Memory.Paging
import MyOS.Memory.Mmu
import MyOS.Elf.Model
import MyOS.Elf.Pages
import MyOS.Elf.Images
import MyOS.Elf.Contents
import MyOS.Elf.Demand
import MyOS.Elf.LowFrames
import MyOS.Elf.Reads
import MyOS.Elf.Rollback
import MyOS.Sched.Model
import MyOS.Sched.Ring
import MyOS.Sched.Runs
import MyOS.Sched.Calls
import MyOS.Sched.Context
import MyOS.Interrupts.Pic
import MyOS.Interrupts.Descriptors
import MyOS.Interrupts.Frame
import MyOS.Interrupts.Resume
import MyOS.Sched.Exec
import MyOS.Sched.Resources
import MyOS.Sched.RoundRobin
import MyOS.Sched.Slices
import MyOS.Shell.Model
import MyOS.Shell.Paths
import MyOS.Shell.Cwd
import MyOS.Shell.Numbers
import MyOS.Shell.Parse
import MyOS.Shell.Pwd
import MyOS.Shell.Readline
import MyOS.Shell.Restore
