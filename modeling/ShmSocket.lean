import ShmSocket.CInt
import ShmSocket.Lib.StepMachine
import ShmSocket.Lib.CircularWindow
import ShmSocket.Lib.LinkedCells
import ShmSocket.Lib.Progress
import ShmSocket.Lib.Linearize
import ShmSocket.Lib.BoundedFifo
import ShmSocket.Lib.Refinement
import ShmSocket.RingBuffer.Segment
import ShmSocket.RingBuffer.Sequential
import ShmSocket.RingBuffer.Steps
import ShmSocket.RingBuffer.Invariant
import ShmSocket.RingBuffer.Preservation
import ShmSocket.RingBuffer.Roles
import ShmSocket.RingBuffer.History
import ShmSocket.RingBuffer.Solo
import ShmSocket.RingBuffer.Stream
import ShmSocket.RingBuffer.Overrun
import ShmSocket.RingBuffer.Readers
import ShmSocket.RingBuffer.Commit
import ShmSocket.RingBuffer.Lengths
import ShmSocket.RingBuffer.Naive
import ShmSocket.RingBuffer.Circular
import ShmSocket.RingBuffer.Chunks
import ShmSocket.RingBuffer.Retries
import ShmSocket.RingBuffer.Progress
import ShmSocket.RingBuffer.Accounts
import ShmSocket.RingBuffer.Linearization
import ShmSocket.RingBuffer.Loads
import ShmSocket.Pool.Channel
import ShmSocket.Pool.Concurrent
import ShmSocket.Pool.Progress
import ShmSocket.Pool.Pool
import ShmSocket.Pool.Partition
import ShmSocket.Pool.Demand
import ShmSocket.Pool.Processes
import ShmSocket.Pool.Chains
import ShmSocket.Pool.Growth
import ShmSocket.Pool.Releases
import ShmSocket.Pool.Allocator
import ShmSocket.IndexTable.Table
import ShmSocket.IndexTable.Agreement
import ShmSocket.IndexTable.Lifetimes
import ShmSocket.PortTable.Steps
import ShmSocket.PortTable.Winner
import ShmSocket.PortTable.Ownership
import ShmSocket.Segment.Attach
import ShmSocket.Connection.Rings
import ShmSocket.Connection.RingsInv
import ShmSocket.Connection.Reuse
import ShmSocket.Connection.Calls
import ShmSocket.Connection.Network
import ShmSocket.Connection.Isolation
import ShmSocket.Connection.Sessions
import ShmSocket.Connection.SessionsInv
import ShmSocket.Connection.Waiting
import ShmSocket.Connection.Descriptors
import ShmSocket.Connection.Leftovers
import ShmSocket.Connection.Streams
import ShmSocket.Connection.ParallelStreams
import ShmSocket.Connection.Capacity
import ShmSocket.Connection.Sockets
import ShmSocket.Connection.Objects
import ShmSocket.Connection.Duplex
import ShmSocket.Connection.Accepting
import ShmSocket.Connection.Handshake
import ShmSocket.Connection.EndOfStream
import ShmSocket.Connection.Returning
import ShmSocket.Connection.PortWords
import ShmSocket.Connection.Failures
import ShmSocket.Connection.Closing
import ShmSocket.Segment.Keys
import ShmSocket.Workspace.RingBuffer
import ShmSocket.Workspace.Counts
import ShmSocket.Workspace.ConnectionPool
