import Virtkv.TwoLevel.Refinement
import Virtkv.InvMapping.Log
import Virtkv.Flash.Span
import Virtkv.Command.Insert
import Virtkv.Cache.Frame
import Virtkv.Command.Probe
import Virtkv.Command.Reply
import Virtkv.Command.Batch
import Virtkv.Command.Walk
import Virtkv.Io.Dispatch
import Virtkv.Io.Sorted
import Virtkv.Io.Admin
import Virtkv.Evict.Occupancy
import Virtkv.Run.Clean
import Virtkv.Run.KeyValue
import Virtkv.Lock.Runs
import Virtkv.Append.Buffered
import Virtkv.Command.Skip
import Virtkv.Fill.Correct
import Virtkv.Gc.Combine
import Virtkv.Gc.Pages
import Virtkv.Io.Completion
import Virtkv.Lib.Window
import Virtkv.Timing.Channel
import Virtkv.Timing.Nand
import Virtkv.Cache.Spend
import Virtkv.Run.Credit
import Virtkv.Lib.Recency
import Virtkv.Lru.Defs
import Virtkv.Lru.Linked
import Virtkv.Lru.Recency
import Virtkv.Flash.Portions
import Virtkv.Controller.BringUp
import Virtkv.Lib.Chunked
import Virtkv.Lib.PhaseRing
import Virtkv.Protocol.Defs
import Virtkv.Protocol.Rings
import Virtkv.Protocol.Safety
import Virtkv.Prp.Build
import Virtkv.Prp.Data
import Virtkv.Prp.Transfer
import Virtkv.Accounts.Cheapest
import Virtkv.City.Hash
import Virtkv.Evict.Fifo
import Virtkv.Evict.Kept
import Virtkv.Gc.Trailer
import Virtkv.Oob.Defs
import Virtkv.Oob.Evict
import Virtkv.Oob.Run
