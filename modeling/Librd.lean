import Librd.Lib.Machine
import Librd.Avl.Tree
import Librd.Avl.Balance
import Librd.Avl.Order
import Librd.Avl.Height
import Librd.Encoding.RoundTrip
import Librd.Fifoq.Conserve
import Librd.Timers.Timer
import Librd.Timers.Effects
import Librd.Timers.Deadline
import Librd.Timers.Lifetime
import Librd.Timers.Retired
import Librd.Timers.Next
import Librd.Bufs.Buf
import Librd.Lib.Outcome
import Librd.Bufs.Lengths
import Librd.Bufs.Contents
import Librd.Bufs.Prepend
import Librd.Bufs.Serialize
import Librd.Bits.Bitvec
import Librd.Bits.Members
import Librd.Bits.Scan
import Librd.Opt.Opt
import Librd.Opt.Accept
import Librd.Fifoq.Elements
import Librd.Fifoq.Cancelled
import Librd.Fifoq.Limit
import Librd.Timers.Arming
import Librd.Mem.Counters
import Librd.Str.Tsprintf
import Librd.Io.Thread
import Librd.Io.Handles
import Librd.Opt.Spelling
import Librd.Lib.Traced
import Librd.Opt.Names
import Librd.Opt.IntValue
import Librd.Opt.Reads
import Librd.Opt.Groups
import Librd.Opt.Usage
import Librd.Io.Refs
import Librd.Io.Workers
import Librd.Encoding.Decode
import Librd.Encoding.Hex
import Librd.Encoding.HexText
import Librd.Addr.Prepare
import Librd.Avl.Reinsert
import Librd.Avl.Foreach
import Librd.Gz.Gz
import Librd.Gz.Passes
import Librd.Avg.Avg
import Librd.Avg.Rate
import Librd.Lib.Observe
import Librd.Avg.Queries
import Librd.Avg.Division
import Librd.Lib.Splice
import Librd.Log.Log
import Librd.Log.Puts
import Librd.Log.Contexts
import Librd.Thread.Destroy
import Librd.Thread.Count
import Librd.Thread.Deadline
import Librd.Thread.Poll
import Librd.Io.AddFails
import Librd.Mem.Failed
import Librd.Mem.Struct
import Librd.Lib.Links
import Librd.Sysqueue.Sysqueue
import Librd.Sysqueue.Move
import Librd.Sysqueue.Sorted
import Librd.File.File
import Librd.Lib.FisherYates
import Librd.Rand.Shuffle
import Librd.Lib.ShiftRegister
import Librd.Lib.CyclicCode
import Librd.Crc.Crc32
import Librd.Str.Spans
import Librd.Str.Strnncmp
import Librd.Lib.Words
import Librd.Crc.Detect
import Librd.Sysqueue.Heads
import Librd.Lru.Lru
import Librd.Sysqueue.Simpleq
import Librd.Sysqueue.Traverse
import Librd.Addr.Getaddrinfo
import Librd.Log.Hexdump
import Librd.Lib.Blocks
import Librd.Thread.Event
import Librd.Thread.Calls
import Librd.Addr.Sockaddr2str
import Librd.Str.Diffpos
import Librd.Timers.Punctual
import Librd.Avl.Memory
import Librd.Avl.Trees
import Librd.Avl.Forest
