import OsZero.Wait.Sleep
import OsZero.CoreWar.Queue
import OsZero.Sched.Ready
import OsZero.Buf.Cache
import OsZero.KernMem.Heap
import OsZero.KernMem.Buddy
import OsZero.UserMem.Lists
import OsZero.UserMem.Exit
import OsZero.UserMem.Relmap
import OsZero.Sync.Prio
import OsZero.Sync.Ticket
import OsZero.Sync.Barrier
import OsZero.Sync.Sem
import OsZero.Queue.LockFree
import OsZero.Queue.Ringbuf
import OsZero.Codec.Utf8
import OsZero.Proc.TaskId
import OsZero.Rand.Recurrence
import OsZero.Term.Params
import OsZero.CoreWar.Disasm
import OsZero.Tree.Redblack
import OsZero.Tree.Trie
import OsZero.Mbuf.Content
import OsZero.Zcc.Progress
import OsZero.Arith.Fastidiv
import OsZero.Net.Inet
import OsZero.Sched.Index
import OsZero.Sched.Deadline
import OsZero.Mbuf.Sharing
import OsZero.KernMem.Frames
import OsZero.Zas.Layout
import OsZero.Dungeon.Extract
import OsZero.Libc.Compare
import OsZero.Libc.Bounded
import OsZero.Lib.Blocks
import OsZero.KernMem.Block
import OsZero.Libc.Move
import OsZero.Sched.Score
import OsZero.Zcc.Value
import OsZero.UserMem.Wrap
import OsZero.UserMem.Realloc
import OsZero.Lib.Sorting
import OsZero.Libc.Qsort
import OsZero.Libc.Sorted
import OsZero.CoreWar.Icws
import OsZero.CoreWar.Standard
import OsZero.CoreWar.Obeys
import OsZero.Queue.Casqueue
import OsZero.Queue.Stacked
import OsZero.Lib.Lanes
import OsZero.Trix.Bitcnt
import OsZero.Trix.Division
import OsZero.Trix.Ratio
import OsZero.Kern.Bitmap
import OsZero.Libc.Strstr
import OsZero.Libc.Strtok
import OsZero.Trix.Mulrange
import OsZero.Lib.Carry
import OsZero.Net.Ip4chksum
import OsZero.Lib.Numerals
import OsZero.Kern.Number
import OsZero.Lib.Yard
import OsZero.Shunt.Parse
import OsZero.Shunt.Lists
import OsZero.Shunt.Groups
import OsZero.Shunt.Eval
import OsZero.Lib.Buckets
import OsZero.Zas.Symtab
import OsZero.Lib.Binned
import OsZero.Zcc.Symhash
import OsZero.Zcc.Idtrie
import OsZero.Zcc.Idhash
import OsZero.Lib.Sieves
import OsZero.Prime.Sieve
import OsZero.Prime.Isprime
import OsZero.Lib.Portions
import OsZero.Unix.Transfer
import OsZero.Unix.Wholefile
import OsZero.Zas.Getc
import OsZero.Zas.Nested
import OsZero.Tree.Shaped
import OsZero.Tree.Prev
import OsZero.Tree.Before
import OsZero.Tree.Missed
import OsZero.Zas.Fields
import OsZero.Zas.Gettoken
import OsZero.Zas.Readfile
import OsZero.Zas.Progress
import OsZero.Deq.Headtail
import OsZero.Tree.Cbt
import OsZero.Lib.Rounding
import OsZero.KernMem.Zone
import OsZero.KernMem.Unmap
import OsZero.KernMem.Mapseg
import OsZero.Mbuf.Data
import OsZero.Mbuf.Getchain
import OsZero.Mbuf.Catchain
import OsZero.Mbuf.Prepend
import OsZero.CoreWar.Reading
import OsZero.CoreWar.Xlate
import OsZero.Mbuf.Duppkt
import OsZero.Queue.Stackstep
import OsZero.Queue.Casrun
import OsZero.Queue.Drain
import OsZero.Buf.Freelist
import OsZero.KernMem.Tiling
import OsZero.KernMem.Headers
import OsZero.Libc.Memset
import OsZero.Libc.Bsearch
import OsZero.Trix.Saturate
import OsZero.Trix.Remainder
import OsZero.UserMem.Mixers
import OsZero.Lib.Spaces
import OsZero.Libc.Bzero
import OsZero.Kern.Mouse
import OsZero.Libc.Segments
import OsZero.Lib.Freestack
import OsZero.UserMem.Freestk
import OsZero.UserMem.Colors
import OsZero.UserMem.Hashblks
import OsZero.CoreWar.Loop
import OsZero.Sync.Sleep
import OsZero.Libc.Atexit
import OsZero.Kern.Keyboard
import OsZero.Kern.Kprintf
import OsZero.Kern.Segment
import OsZero.Zas.Resolve
import OsZero.Kern.Mptable
import OsZero.Sync.Spin
import OsZero.Sched.Sleepqueue
import OsZero.Mjolnir.Rooms
import OsZero.Lib.Lagged
import OsZero.Rand.Lagfib
import OsZero.Lib.Circles
import OsZero.Deq.Circular
import OsZero.Kern.Dma
import OsZero.Libc.Search
import OsZero.Dungeon.Corridor
import OsZero.Sync.Maplk
import OsZero.Mbuf.Bufpool
import OsZero.Trix.Zeros
