import Avocado.Lib.Bytes
import Avocado.Lib.Lookup
import Avocado.Lib.Run
import Avocado.Lib.AtomicSet
import Avocado.Lib.Linear
import Avocado.Lib.Sorted
import Avocado.Lib.Triples
import Avocado.Lib.Records
import Avocado.Lib.AssocList
import Avocado.Lib.Text
import Avocado.Lib.Chain
import Avocado.Lib.Ledger
import Avocado.Lib.Pool
import Avocado.Lib.Loop
import Avocado.Lib.CString
import Avocado.Lib.Register
import Avocado.Lib.Tally
import Avocado.Lib.RwLock
import Avocado.Lamport
import Avocado.ClockOrders
import Avocado.Msg
import Avocado.Memtable.Store
import Avocado.Memtable.KeyOrder
import Avocado.Memtable.Concurrent
import Avocado.Memtable.Refine
import Avocado.Memtable.Trace
import Avocado.Memtable.Linearizable
import Avocado.Memtable.Tamper
import Avocado.Memtable.Schedules
import Avocado.Memtable.Slab
import Avocado.Abd.Handlers
import Avocado.Abd.Replica
import Avocado.Abd.System
import Avocado.Abd.Steps
import Avocado.Abd.Frame
import Avocado.Abd.Invariant
import Avocado.Abd.Group
import Avocado.Abd.History
import Avocado.Abd.Provenance
import Avocado.Abd.Uniqueness
import Avocado.Abd.Regularity
import Avocado.Abd.Atomicity
import Avocado.Abd.Quorum
import Avocado.Abd.Buffers
import Avocado.Abd.Responses
import Avocado.Abd.Dominance
import Avocado.Abd.ReadResult
import Avocado.Abd.Newest
import Avocado.Abd.FastPath
import Avocado.Abd.RoundTrip
import Avocado.Abd.Pending
import Avocado.Abd.Progress
import Avocado.Abd.Completion
import Avocado.Abd.Linearizable
import Avocado.Abd.Convergence
import Avocado.Abd.Termination
import Avocado.Abd.Availability
import Avocado.Abd.ParkedValue
import Avocado.Abd.ElementSize
import Avocado.Abd.Bounds
import Avocado.Abd.Unauthenticated
import Avocado.Abd.ReplicaGroups
import Avocado.Abd.GroupAgreement
import Avocado.Server.Address
import Avocado.Server.RateLimit
import Avocado.Server.HostMemory
import Avocado.Server.Zipf
import Avocado.Server.Threads
import Avocado.Server.Finish
import Avocado.Server.Deployment
import Avocado.Server.Benchmark
import Avocado.Server.RunEventLoop
import Avocado.CopyUtility
import Avocado.Abd.Routing
import Avocado.Crypt.KeyIV
import Avocado.Crypt.Gcm
import Avocado.Crypt.Packet
import Avocado.Abd.AnswerSize
import Avocado.Crypt.HashSsl
import Avocado.Crypt.Incremental
import Avocado.Crypt.Stream
import Avocado.Hashtable.Table
import Avocado.Hashtable.Bucket
import Avocado.Hashtable.Map
import Avocado.Hashtable.Tamper
import Avocado.Hashtable.FailedPut
import Avocado.Hashtable.NodeList
import Avocado.Hashtable.Locked
import Avocado.Abd.Layers
