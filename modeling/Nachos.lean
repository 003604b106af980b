import Nachos.Threads.Basic
import Nachos.Threads.Exec
import Nachos.Lib.Count
import Nachos.Lib.Linearize
import Nachos.Lib.Transition
import Nachos.Threads.Outcome
import Nachos.Threads.Mode
import Nachos.Threads.Placement
import Nachos.Threads.Fault
import Nachos.Threads.History
import Nachos.Threads.Script
import Nachos.Threads.Activation
import Nachos.Threads.Condition
import Nachos.Synch.Client
import Nachos.Synch.Control
import Nachos.Synch.Semaphore
import Nachos.Synch.Lock
import Nachos.Synch.Discipline
import Nachos.Synch.Holding
import Nachos.Synch.Device
import Nachos.Synch.Request
import Nachos.Synch.LockTest
import Nachos.Elevator.Basic
import Nachos.Elevator.Safety
import Nachos.Elevator.Announce
import Nachos.Elevator.Shutdown
import Nachos.Elevator.Sweep
import Nachos.Elevator.Floors
import Nachos.Synch.SynchList
import Nachos.Filesys.SynchDisk
import Nachos.Lib.Bytes
import Nachos.Synch.Units
import Nachos.Synch.Mutex
import Nachos.Synch.Guard
import Nachos.Synch.ThreadTest
import Nachos.Synch.Handoff
import Nachos.Network.Basic
import Nachos.Network.Packet
import Nachos.Network.Office
import Nachos.Network.Delivery
import Nachos.Network.Net
import Nachos.Machine.Run
import Nachos.Machine.Status
import Nachos.Machine.Interrupt
import Nachos.Machine.SameTick
import Nachos.Machine.Disk
import Nachos.Machine.Console
import Nachos.Machine.Output
import Nachos.Machine.Drain
import Nachos.Machine.Timer
import Nachos.Machine.Preempt
import Nachos.Userprog.ConsoleTest
import Nachos.Lib.Priority
import Nachos.Lib.Agenda
import Nachos.Lib.Exit
import Nachos.Lib.Calls
import Nachos.Lib.Heap
import Nachos.Threads.LinkedList
import Nachos.Lib.Signed
import Nachos.Lib.DoubleWord
import Nachos.Machine.Basic
import Nachos.Machine.Instruction
import Nachos.Machine.Trap
import Nachos.Machine.DelaySlot
import Nachos.Machine.Signed
import Nachos.Machine.Mult
import Nachos.Machine.Arithmetic
import Nachos.Machine.Translation
import Nachos.Machine.Memory
import Nachos.Bin.Coff2noff
import Nachos.Userprog.AddrSpace
import Nachos.Userprog.Loading
import Nachos.Userprog.UserState
import Nachos.Lib.Buffer
import Nachos.Lib.Ram
import Nachos.Lib.I386
import Nachos.Filesys.OpenFile
import Nachos.Userprog.BitMap
import Nachos.Userprog.BitSet
import Nachos.Filesys.FileHdr
import Nachos.Filesys.Directory
import Nachos.Filesys.DirectoryMap
import Nachos.Filesys.FileSystem
import Nachos.Lib.Ownership
import Nachos.Filesys.Consistency
import Nachos.Filesys.Create
import Nachos.Filesys.Remove
import Nachos.Filesys.Format
import Nachos.Filesys.Session
import Nachos.Filesys.Outcome
import Nachos.Filesys.Runs
import Nachos.Filesys.NamedFiles
import Nachos.Filesys.Refinement
import Nachos.Filesys.Handles
import Nachos.Filesys.Limits
import Nachos.Filesys.Listing
import Nachos.Filesys.Sequential
import Nachos.Filesys.Fstest
import Nachos.Threads.Switch
import Nachos.Threads.Resume
import Nachos.Threads.ThreadRoot
import Nachos.Threads.RoundRobin
import Nachos.Synch.Race
