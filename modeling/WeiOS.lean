import WeiOS.Lib.Run
import WeiOS.Lib.Triple
import WeiOS.Lib.Crash
import WeiOS.Lib.Holders
import WeiOS.Lib.IntrusiveList
import WeiOS.Lib.RingBuffer
import WeiOS.Lib.Dyadic
import WeiOS.Lib.SlotTable
import WeiOS.Process.Pid
import WeiOS.Process.Lookup
import WeiOS.Process.SleepLock
import WeiOS.Process.Sched
import WeiOS.Process.SchedLists
import WeiOS.Process.SchedModel
import WeiOS.Process.SchedInv
import WeiOS.Process.SchedRuns
import WeiOS.Process.TimeSlices
import WeiOS.Process.Fairness
import WeiOS.Process.Preempted
import WeiOS.Process.RunQueue
import WeiOS.Process.Exit
import WeiOS.Process.Wait
import WeiOS.Process.Messages
import WeiOS.Process.ExecArgs
import WeiOS.Process.IntFlag
import WeiOS.Fs.Bio
import WeiOS.Fs.BufferCache
import WeiOS.Fs.InodeCache
import WeiOS.Fs.Inode
import WeiOS.Fs.BlockOwner
import WeiOS.Fs.Directory
import WeiOS.Fs.Syscall
import WeiOS.Fs.OpenFiles
import WeiOS.Fs.InodeRefs
import WeiOS.Fs.HeldInodes
import WeiOS.Fs.RefRuns
import WeiOS.Fs.SelfLock
import WeiOS.Fs.FileWrite
import WeiOS.Fs.FileData
import WeiOS.Fs.SharedOffset
import WeiOS.Fs.FileCalls
import WeiOS.User.Copy
import WeiOS.Fs.ByteArray
import WeiOS.Fs.Mkfs
import WeiOS.Fs.BlockMap
import WeiOS.Fs.DirEntries
import WeiOS.Fs.MkfsFiles
import WeiOS.Fs.MkfsImage
import WeiOS.Fs.Paths
import WeiOS.Fs.Transactions
import WeiOS.Fs.Pipe
import WeiOS.Fs.PipeCall
import WeiOS.Fs.LogProtocol
import WeiOS.Fs.Recovery
import WeiOS.Fs.Commit
import WeiOS.Fs.CrashModel
import WeiOS.Fs.CrashStates
import WeiOS.Fs.CrashAccess
import WeiOS.Fs.Crash
import WeiOS.Dev.Ide
import WeiOS.Dev.IdeRequests
import WeiOS.Dev.Elevator
import WeiOS.Dev.Console
import WeiOS.Dev.Cga
import WeiOS.Mm.Buddy
import WeiOS.Mm.BuddyZone
import WeiOS.Mm.BuddyBoot
import WeiOS.Mm.BuddyInvariant
import WeiOS.Mm.BuddyBlocks
import WeiOS.Mm.ZoneMoves
import WeiOS.Mm.PageAlloc
import WeiOS.Mm.PageZones
import WeiOS.Mm.Watermark
import WeiOS.Mm.ZoneLocks
import WeiOS.Mm.Reserved
import WeiOS.Mm.PageTable
import WeiOS.Mm.PageRefs
import WeiOS.Mm.PageCalls
import WeiOS.Mm.PageAccess
import WeiOS.Mm.PageMap
import WeiOS.Mm.Heap
import WeiOS.Mm.HeapFault
import WeiOS.Mm.UserMem
import WeiOS.Mm.Slab
import WeiOS.Mm.SlabInvariant
import WeiOS.Mm.MetaCache
import WeiOS.Lib.RedBlack
import WeiOS.Lib.Ledger
import WeiOS.User.Krbtree
import WeiOS.User.KrbtreeRep
import WeiOS.User.KrbtreeInsert
import WeiOS.User.KrbtreeDelete
import WeiOS.User.Umalloc
import WeiOS.User.KrbtreeSuccessor
import WeiOS.User.Ustring
import WeiOS.User.PathSearch
import WeiOS.User.Syscalls
import WeiOS.User.Printf
import WeiOS.User.PrintfCount
import WeiOS.User.Shell
import WeiOS.Process.Create
import WeiOS.Process.StackTable
import WeiOS.Process.Life
import WeiOS.Fs.HeldBuffers
import WeiOS.Fs.HeldRelease
import WeiOS.Fs.LoggedBlocks
import WeiOS.Lib.MapProgram
import WeiOS.Fs.StoreModel
import WeiOS.Fs.BlockStore
import WeiOS.Mm.PageContents
import WeiOS.Mm.AddressSpaces
import WeiOS.Mm.CowFork
import WeiOS.Process.ForkPages
import WeiOS.Process.ExecImage
import WeiOS.Boot.Loader
import WeiOS.Boot.KernelMap
import WeiOS.Dev.Keyboard
