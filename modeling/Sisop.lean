import Sisop.Fork.Find
import Sisop.Fork.Primes
import Sisop.Fork.Theorems.Find
import Sisop.Fork.Theorems.Primes
import Sisop.Fork.Theorems.Xargs
import Sisop.Fork.Xargs
import Sisop.Fs.Bc
import Sisop.Fs.Fs
import Sisop.Fs.Fsformat
import Sisop.Fs.Path
import Sisop.Fs.Sample
import Sisop.Fs.Serv
import Sisop.Fs.Theorems.Bc
import Sisop.Fs.Theorems.BcCoherent
import Sisop.Fs.Theorems.Blocks
import Sisop.Fs.Theorems.Client
import Sisop.Fs.Theorems.Confined
import Sisop.Fs.Theorems.Contents
import Sisop.Fs.Theorems.Create
import Sisop.Fs.Theorems.Dir
import Sisop.Fs.Theorems.Fresh
import Sisop.Fs.Theorems.Fsformat
import Sisop.Fs.Theorems.GetBlock
import Sisop.Fs.Theorems.Grow
import Sisop.Fs.Theorems.Holes
import Sisop.Fs.Theorems.Inside
import Sisop.Fs.Theorems.Layout
import Sisop.Fs.Theorems.Loops
import Sisop.Fs.Theorems.NoDisk
import Sisop.Fs.Theorems.OpenTab
import Sisop.Fs.Theorems.Ops
import Sisop.Fs.Theorems.Owned
import Sisop.Fs.Theorems.Ownership
import Sisop.Fs.Theorems.Path
import Sisop.Fs.Theorems.Reach
import Sisop.Fs.Theorems.Reads
import Sisop.Fs.Theorems.Ready
import Sisop.Fs.Theorems.Requests
import Sisop.Fs.Theorems.Runs
import Sisop.Fs.Theorems.SetSize
import Sisop.Fs.Theorems.Sizes
import Sisop.Fs.Theorems.Transfer
import Sisop.Fs.Theorems.Truncate
import Sisop.Inc.Env
import Sisop.Inc.Fs
import Sisop.Inc.Mmu
import Sisop.Kern.BootAlloc
import Sisop.Kern.Console
import Sisop.Kern.Cputs
import Sisop.Kern.Crt
import Sisop.Kern.Env
import Sisop.Kern.Init
import Sisop.Kern.Kbd
import Sisop.Kern.Kdebug
import Sisop.Kern.LoadIcode
import Sisop.Kern.Mpconfig
import Sisop.Kern.Mpentry
import Sisop.Kern.Pmap
import Sisop.Kern.Pse
import Sisop.Kern.Refs
import Sisop.Kern.Sample
import Sisop.Kern.Smp
import Sisop.Kern.State
import Sisop.Kern.Step
import Sisop.Kern.Syscall
import Sisop.Kern.Theorems.Binsearch
import Sisop.Kern.Theorems.BootAlloc
import Sisop.Kern.Theorems.Console
import Sisop.Kern.Theorems.Context
import Sisop.Kern.Theorems.Cputs
import Sisop.Kern.Theorems.Crt
import Sisop.Kern.Theorems.Curenv
import Sisop.Kern.Theorems.DebugInfo
import Sisop.Kern.Theorems.Delivery
import Sisop.Kern.Theorems.Entry
import Sisop.Kern.Theorems.Env
import Sisop.Kern.Theorems.EnvIds
import Sisop.Kern.Theorems.Envs
import Sisop.Kern.Theorems.Failure
import Sisop.Kern.Theorems.Init
import Sisop.Kern.Theorems.Insert
import Sisop.Kern.Theorems.Ipc
import Sisop.Kern.Theorems.IpcCalls
import Sisop.Kern.Theorems.Isolation
import Sisop.Kern.Theorems.Kbd
import Sisop.Kern.Theorems.Kva
import Sisop.Kern.Theorems.LargePages
import Sisop.Kern.Theorems.LoadIcode
import Sisop.Kern.Theorems.Lock
import Sisop.Kern.Theorems.Mmio
import Sisop.Kern.Theorems.MpInv
import Sisop.Kern.Theorems.Mpconfig
import Sisop.Kern.Theorems.Mpentry
import Sisop.Kern.Theorems.PageFault
import Sisop.Kern.Theorems.PageInv
import Sisop.Kern.Theorems.PageList
import Sisop.Kern.Theorems.Pmap
import Sisop.Kern.Theorems.Reachable
import Sisop.Kern.Theorems.Release
import Sisop.Kern.Theorems.Sample
import Sisop.Kern.Theorems.Sched
import Sisop.Kern.Theorems.Smp
import Sisop.Kern.Theorems.Status
import Sisop.Kern.Theorems.Step
import Sisop.Kern.Theorems.Syscall
import Sisop.Kern.Theorems.Trapentry
import Sisop.Kern.Theorems.Unmapped
import Sisop.Kern.Theorems.UserMem
import Sisop.Kern.Theorems.Walk
import Sisop.Kern.Theorems.Write
import Sisop.Kern.Theorems.Zombie
import Sisop.Kern.Trap
import Sisop.Kern.Trapentry
import Sisop.Lib.Args
import Sisop.Lib.Cow
import Sisop.Lib.Devpipe
import Sisop.Lib.Fd
import Sisop.Lib.File
import Sisop.Lib.Fork
import Sisop.Lib.Pfentry
import Sisop.Lib.Pipe
import Sisop.Lib.Printf
import Sisop.Lib.Printfmt
import Sisop.Lib.Readline
import Sisop.Lib.Spawn
import Sisop.Lib.String
import Sisop.Lib.Theorems.Args
import Sisop.Lib.Theorems.Cow
import Sisop.Lib.Theorems.CowInv
import Sisop.Lib.Theorems.CowSpec
import Sisop.Lib.Theorems.Devpipe
import Sisop.Lib.Theorems.DevpipeRing
import Sisop.Lib.Theorems.Dup
import Sisop.Lib.Theorems.Fork
import Sisop.Lib.Theorems.InitStack
import Sisop.Lib.Theorems.MapSegment
import Sisop.Lib.Theorems.Pfentry
import Sisop.Lib.Theorems.Pipe
import Sisop.Lib.Theorems.PipeClosed
import Sisop.Lib.Theorems.Printf
import Sisop.Lib.Theorems.Printfmt
import Sisop.Lib.Theorems.Readline
import Sisop.Lib.Theorems.Spawn
import Sisop.Lib.Theorems.String
import Sisop.Library.Batches
import Sisop.Library.Chain
import Sisop.Library.Gate
import Sisop.Library.Memory
import Sisop.Library.Prog
import Sisop.Library.RefCount
import Sisop.Library.Ring
import Sisop.Library.Rotation
import Sisop.Library.Run
import Sisop.Library.Sharing
import Sisop.Library.Sieve
import Sisop.Library.Terminal
import Sisop.Library.While
import Sisop.Library.X86
import Sisop.Shell.Builtin
import Sisop.Shell.Exec
import Sisop.Shell.Parsing
import Sisop.Shell.Pipeline
import Sisop.Shell.Theorems.Background
import Sisop.Shell.Theorems.Builtin
import Sisop.Shell.Theorems.Environ
import Sisop.Shell.Theorems.Parsing
import Sisop.Shell.Theorems.Pipeline
import Sisop.Shell.Theorems.PipelineFds
import Sisop.Shell.Theorems.Redirect
import Sisop.Shell.Theorems.Words
import Sisop.Shell.Theorems.Writes
import Sisop.Shell.Writes
import Sisop.User.Sh
import Sisop.User.Theorems.Gettoken
import Sisop.User.Theorems.Runcmd
