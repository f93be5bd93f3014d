import Zer0S.Lib.Bitmap
import Zer0S.Lib.Bounded
import Zer0S.Lib.Chain
import Zer0S.Lib.Copy
import Zer0S.Lib.Interleaving
import Zer0S.Lib.Last
import Zer0S.Lib.Loop
import Zer0S.Lib.Mem
import Zer0S.Lib.Numeral
import Zer0S.Lib.Page
import Zer0S.Lib.Paging
import Zer0S.Lib.Pool
import Zer0S.Lib.Record
import Zer0S.Lib.Rounds
import Zer0S.Lib.Simulation
import Zer0S.Lib.Tiling
import Zer0S.Lib.Trace
import Zer0S.Lib.X86
import Zer0S.Spec.Boot
import Zer0S.Spec.Callers
import Zer0S.Spec.Clients
import Zer0S.Spec.Copies
import Zer0S.Spec.Devices
import Zer0S.Spec.Exceptions
import Zer0S.Spec.Gates
import Zer0S.Spec.Interrupts
import Zer0S.Spec.Keyboard
import Zer0S.Spec.Memory
import Zer0S.Spec.Pic
import Zer0S.Spec.Presses
import Zer0S.Spec.Process
import Zer0S.Spec.Scheduler
import Zer0S.Spec.Shell
import Zer0S.Spec.Stacks
import Zer0S.Spec.Strings
import Zer0S.Spec.Switch
import Zer0S.Spec.Syscall
import Zer0S.Spec.System
import Zer0S.Spec.Terminal
import Zer0S.Spec.UserMode
import Zer0S.Proof.Agreement
import Zer0S.Proof.Attribute
import Zer0S.Proof.Calloc
import Zer0S.Proof.CommandLine
import Zer0S.Proof.Commands
import Zer0S.Proof.Compare
import Zer0S.Proof.Creation
import Zer0S.Proof.Devices
import Zer0S.Proof.Dispatch
import Zer0S.Proof.Echo
import Zer0S.Proof.Editing
import Zer0S.Proof.Erase
import Zer0S.Proof.Exceptions
import Zer0S.Proof.FirstFit
import Zer0S.Proof.FramePool
import Zer0S.Proof.FrameUndo
import Zer0S.Proof.Frames
import Zer0S.Proof.Gates
import Zer0S.Proof.Handlers
import Zer0S.Proof.Heap
import Zer0S.Proof.HeapRelease
import Zer0S.Proof.HeapRun
import Zer0S.Proof.HeapSafe
import Zer0S.Proof.HeapState
import Zer0S.Proof.Hex
import Zer0S.Proof.InteractiveSession
import Zer0S.Proof.Interrupts
import Zer0S.Proof.Isolation
import Zer0S.Proof.KeptPresses
import Zer0S.Proof.KeyPress
import Zer0S.Proof.Leaving
import Zer0S.Proof.LineBuffer
import Zer0S.Proof.Lookup
import Zer0S.Proof.Mapping
import Zer0S.Proof.Masks
import Zer0S.Proof.Nesting
import Zer0S.Proof.Numbers
import Zer0S.Proof.Overlap
import Zer0S.Proof.Overtaking
import Zer0S.Proof.Pids
import Zer0S.Proof.ProcessOps
import Zer0S.Proof.ReadyList
import Zer0S.Proof.ReadyQueue
import Zer0S.Proof.Reserved
import Zer0S.Proof.RoundRobin
import Zer0S.Proof.RunQueues
import Zer0S.Proof.Running
import Zer0S.Proof.Screen
import Zer0S.Proof.ScreenText
import Zer0S.Proof.Search
import Zer0S.Proof.SessionRuns
import Zer0S.Proof.Shift
import Zer0S.Proof.Stacks
import Zer0S.Proof.StringCopies
import Zer0S.Proof.Switch
import Zer0S.Proof.Syscall
import Zer0S.Proof.SyscallEffect
import Zer0S.Proof.System
import Zer0S.Proof.SystemRuns
import Zer0S.Proof.SystemSession
import Zer0S.Proof.TypedOrder
import Zer0S.Proof.Typing
import Zer0S.Proof.UserMode
