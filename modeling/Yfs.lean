import Yfs.Common.Run
import Yfs.Common.SortedMap
import Yfs.Marshall.RoundTrip
import Yfs.Marshall.Bounds
import Yfs.Marshall.Handler
import Yfs.Marshall.Capacity
import Yfs.Poll.Epoll
import Yfs.Poll.Highest
import Yfs.Poll.Removal
import Yfs.Connection.Framing
import Yfs.Connection.ReadBounds
import Yfs.Connection.EndOfStream
import Yfs.Connection.Sending
import Yfs.Connection.Sleepers
import Yfs.Connection.Callbacks
import Yfs.Connection.Pipe
import Yfs.Files.Contents
import Yfs.Files.Store
import Yfs.Files.Directory
import Yfs.Files.Listing
import Yfs.Files.Lookup
import Yfs.Files.Fuse
import Yfs.Files.Scan
import Yfs.Files.Entries
import Yfs.Files.NewExtents
import Yfs.Files.Names
import Yfs.Files.Transfer
import Yfs.Files.Replies
import Yfs.Files.LostUpdates
import Yfs.Files.Tree
import Yfs.Lock.Server
import Yfs.Lock.Wakeup
import Yfs.Lock.Pool
import Yfs.Rpc.Window
import Yfs.Rpc.ThrPool
import Yfs.Rpc.Queue
import Yfs.Rpc.Deadline
import Yfs.Rpc.Carry
import Yfs.Rpc.ReplyWindow
import Yfs.Rpc.AtMostOnce
import Yfs.Rpc.Pending
import Yfs.Rpc.Genuine
import Yfs.Rpc.Delivery
import Yfs.Rpc.Channel
import Yfs.Rpc.References
import Yfs.Rpc.ReplyConn
import Yfs.Rpc.Restart
import Yfs.Rpc.Buffers
import Yfs.Common.Reach
import Yfs.Rpc.Recovery
import Yfs.Rpc.Callers
import Yfs.Common.Linear
import Yfs.Rpc.Remote
import Yfs.Files.Integrity
import Yfs.Common.Program
import Yfs.Rpc.Threads
import Yfs.Rpc.Single
import Yfs.Files.Process
