import UnixOs.Core.QueueOps
import UnixOs.Core.Cred
import UnixOs.Core.Reap
import UnixOs.Core.WakeAll
import UnixOs.Core.Alarm
import UnixOs.Core.ReadyQueues
import UnixOs.Core.Collect
import UnixOs.Fs.JournalCrash
import UnixOs.Fs.JournalBurst
import UnixOs.Mm.Isolation
import UnixOs.Ipc.PipeEnds
import UnixOs.Fs.Dup
import UnixOs.Fs.RamfsCounts
import UnixOs.Core.Rcu
import UnixOs.Fs.Chdir
import UnixOs.Fs.RamfsData
import UnixOs.Fs.Ext2Readdir
import UnixOs.Core.Shootdown
import UnixOs.Ipc.PipeFree
import UnixOs.Fs.FdKinds
import UnixOs.Fs.Ext2Mount
import UnixOs.Mm.ExecForget
import UnixOs.User.MallocServed
import UnixOs.Core.Spinlock
import UnixOs.Ipc.PipeDelivery
import UnixOs.Fs.ReaddirLive
import UnixOs.Core.KeyEvents
import UnixOs.User.Division
import UnixOs.Fs.PathBuffer
import UnixOs.User.Getopt
import UnixOs.User.Format
import UnixOs.User.Itoa
import UnixOs.Core.WaitExit
