import RdmaTransport.Lib.Runs
import RdmaTransport.Lib.Progress
import RdmaTransport.Lib.DrainLoop
import RdmaTransport.Lib.PollLoop
import RdmaTransport.Lib.Memory
import RdmaTransport.Lib.Format
import RdmaTransport.Lib.Grammar
import RdmaTransport.Lib.Ledger
import RdmaTransport.Lib.Blocks
import RdmaTransport.Lib.Transfer
import RdmaTransport.Lib.Ring
import RdmaTransport.Lib.Objects
import RdmaTransport.Chunk
import RdmaTransport.ChunkPosition
import RdmaTransport.ClusterAdd
import RdmaTransport.Receive
import RdmaTransport.ReceiveSteps
import RdmaTransport.ReceiveStream
import RdmaTransport.ReceiveConservation
import RdmaTransport.TxEvent
import RdmaTransport.ReadCall
import RdmaTransport.Send
import RdmaTransport.Packing
import RdmaTransport.SendFailures
import RdmaTransport.ChunkPools
import RdmaTransport.Messenger
import RdmaTransport.Ownership
import RdmaTransport.FreeChunks
import RdmaTransport.SynMsg
import RdmaTransport.GidText
import RdmaTransport.SynAccept
import RdmaTransport.InfoCon
import RdmaTransport.ParserBounds
import RdmaTransport.Handshake
import RdmaTransport.Accept
import RdmaTransport.QpAttributes
import RdmaTransport.HandshakeWiring
import RdmaTransport.Exchange
import RdmaTransport.QueuePairs
import RdmaTransport.Devices
import RdmaTransport.Session
import RdmaTransport.SessionRing
import RdmaTransport.SessionOverwrite
import RdmaTransport.SessionGather
import RdmaTransport.SessionQuery
import RdmaTransport.QueryText
import RdmaTransport.SessionSend
import RdmaTransport.SendBuffer
import RdmaTransport.Benchmark
import RdmaTransport.Bulk
import RdmaTransport.BulkPlacement
import RdmaTransport.SlotRing
import RdmaTransport.SendQueue
import RdmaTransport.BulkCleanup
import RdmaTransport.WorkRequests
import RdmaTransport.SlotTable
import RdmaTransport.Door
import RdmaTransport.DoorProgress
import RdmaTransport.HugePages
import RdmaTransport.SessionClose
import RdmaTransport.Migration
import RdmaTransport.Lib.Handles
import RdmaTransport.RdmaContext
import RdmaTransport.Network
import RdmaTransport.Lifetime
