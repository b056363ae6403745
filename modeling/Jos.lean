import Jos.Foundation.Run
import Jos.Foundation.Chain
import Jos.Foundation.Count
import Jos.Foundation.Loop
import Jos.Foundation.Overwrite
import Jos.Inc.Mmu
import Jos.Inc.Env
import Jos.Kern.Pmap
import Jos.Kern.Env
import Jos.Kern.Boot
import Jos.Kern.Multiboot
import Jos.Kern.Translate
import Jos.Kern.Syscall
import Jos.Kern.Sched
import Jos.Kern.Trap
import Jos.Kern.Upcall
import Jos.Lib.Pfentry
import Jos.Kern.Access
import Jos.Kern.Event
import Jos.Kern.Lock
import Jos.Kern.Spinlock
import Jos.Kern.Check
import Jos.Kern.Regions
import Jos.Memory.Place
import Jos.Memory.Tree
import Jos.Memory.Uses
import Jos.Memory.Ledger
import Jos.Memory.Steps
import Jos.Memory.Walk
import Jos.Memory.Pages
import Jos.Memory.Mapping
import Jos.Memory.Address
import Jos.Memory.Translation
import Jos.Memory.Undo
import Jos.Memory.Lookup
import Jos.Memory.Insert
import Jos.Memory.Check
import Jos.Memory.Window
import Jos.Memory.Alike
import Jos.Memory.Boot
import Jos.Environment.Free
import Jos.Environment.Sound
import Jos.Environment.Alloc
import Jos.Environment.Alike
import Jos.Environment.Release
import Jos.Environment.Table
import Jos.Environment.Boot
import Jos.Calls.Effect
import Jos.Calls.Memory
import Jos.Calls.Environment
import Jos.Calls.Creation
import Jos.Calls.Ipc
import Jos.Calls.Step
import Jos.Calls.Table
import Jos.Calls.Fate
import Jos.Processors.Switch
import Jos.Processors.Entry
import Jos.Processors.Rotation
import Jos.Processors.Mail
import Jos.Processors.Tlb
import Jos.Calls.Progress
import Jos.Calls.Alike
import Jos.Calls.Survival
import Jos.Runs.Sound
import Jos.Runs.SelfMap
import Jos.Runs.Table
import Jos.Runs.KernelHalf
import Jos.Runs.Visible
import Jos.Runs.Isolation
import Jos.Runs.Processors
import Jos.Runs.References
import Jos.Runs.Teardown
import Jos.Runs.Traces
import Jos.Runs.Transfer
import Jos.Runs.Sending
import Jos.Runs.Upcall
import Jos.Runs.Resume
import Jos.Runs.Delivery
import Jos.Runs.Identity
import Jos.Runs.Allocator
import Jos.Runs.DoubleFree
import Jos.Runs.Privilege
import Jos.Runs.Rights
import Jos.Runs.Ram
import Jos.Runs.Leaks
import Jos.Runs.Crash
import Jos.Runs.Returned
import Jos.Runs.Stacks
import Jos.Runs.Tlb
import Jos.Runs.Image
import Jos.Runs.Insert
import Jos.Shell.Runcmd
import Jos.Shell.Pipeline
import Jos.Shell.Grammar
import Jos.Shell.Buffers
import Jos.Net.Thread
import Jos.Net.Mailbox
import Jos.Net.Output
import Jos.Net.Jif
import Jos.Net.Pools
import Jos.Net.Serv
import Jos.Net.Httpd
import Jos.Net.Request
import Jos.Net.Transmit
import Jos.Net.Receive
import Jos.Processors.Lock
import Jos.Lib.Privacy
import Jos.Lib.Shows
import Jos.Lib.Pipe
import Jos.Lib.Traffic
import Jos.Lib.Socket
import Jos.Lib.Fd
import Jos.Lib.Descriptors
import Jos.Lib.Eof
import Jos.Lib.Search
import Jos.Lib.Loading
import Jos.Fs.Cache
import Jos.Fs.Ids
import Jos.Fs.Devfile
import Jos.Fs.Read
import Jos.Fs.Opened
import Jos.Fs.Failure
import Jos.Fs.RoundTrip
import Jos.Fs.Paths
import Jos.Fs.Create
import Jos.Fs.Alloc
import Jos.Fs.Shorten
import Jos.Fs.Transfer
import Jos.Fs.Ownership
import Jos.Fs.Uses
import Jos.Fs.Contents
import Jos.Fs.Arrays
import Jos.Fs.Sizes
import Jos.Lib.Args
import Jos.Lib.String
import Jos.Lib.Readline
import Jos.Lib.Nsipc
import Jos.Lib.Printfmt
import Jos.Lib.Format
import Jos.Lib.Bounded
import Jos.Lib.Numbers
import Jos.Lib.Sprintf
import Jos.Lib.Fprintf
import Jos.Lib.Strtol
import Jos.Kern.Console
import Jos.Kern.Cga
import Jos.Kern.Keyboard
import Jos.Kern.Time
import Jos.Kern.Mpconfig
import Jos.Kern.ElfRw
import Jos.Kern.Dwarf
import Jos.Kern.Lineno
import Jos.User.Primes
