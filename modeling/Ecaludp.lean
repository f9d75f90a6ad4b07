import Ecaludp.Lib.SlotList
import Ecaludp.Lib.ByteOrder
import Ecaludp.Lib.EntryMap
import Ecaludp.Lib.Collect
import Ecaludp.Lib.Machine
import Ecaludp.Lib.While
import Ecaludp.Lib.Blocks
import Ecaludp.Lib.Windows
import Ecaludp.Lib.Xorshift
import Ecaludp.Lib.CString
import Ecaludp.Lib.Pull
import Ecaludp.Lib.BlockHeap
import Ecaludp.Error
import Ecaludp.Memory
import Ecaludp.Memory.Objects
import Ecaludp.Memory.Refinement
import Ecaludp.Header
import Ecaludp.Format
import Ecaludp.Reassembly
import Ecaludp.Reassembly.Entry
import Ecaludp.Reassembly.Datagram
import Ecaludp.Reassembly.Package
import Ecaludp.Reassembly.Safety
import Ecaludp.Reassembly.Message
import Ecaludp.Reassembly.Delivery
import Ecaludp.Reassembly.Provenance
import Ecaludp.Reassembly.Isolation
import Ecaludp.Reassembly.Order
import Ecaludp.DatagramBuilder
import Ecaludp.DatagramBuilder.Wire
import Ecaludp.DatagramBuilder.Encoding
import Ecaludp.DatagramBuilder.Slices
import Ecaludp.DatagramBuilder.MessageId
import Ecaludp.RoundTrip
import Ecaludp.Truncation
import Ecaludp.Socket
import Ecaludp.Socket.Receive
import Ecaludp.Socket.Magic
import Ecaludp.Socket.Inert
import Ecaludp.Socket.Timeout
import Ecaludp.Socket.Send
import Ecaludp.Socket.Gather
import Ecaludp.Socket.Sent
import Ecaludp.AsyncUdpcapSocket
import Ecaludp.AsyncUdpcapSocket.Requests
import Ecaludp.AsyncUdpcapSocket.Threads
import Ecaludp.AsyncUdpcapSocket.Progress
import Ecaludp.Socket.ReceiveFrom
import Ecaludp.Socket.Loops
import Ecaludp.Socket.Received
import Ecaludp.Socket.ReceivedBytes
import Ecaludp.Socket.Format
import Ecaludp.Socket.Origin
import Ecaludp.Socket.Retention
import Ecaludp.Pooled
import Ecaludp.Pooled.Load
import Ecaludp.Pooled.Refinement
import Ecaludp.Network
import Ecaludp.Network.Invariant
import Ecaludp.Network.Delivery
import Ecaludp.Network.Completion
import Ecaludp.SocketNpcap
import Ecaludp.SocketNpcap.Operations
import Ecaludp.SocketNpcap.Sequential
import Ecaludp.SocketNpcap.Handled
import Ecaludp.Network.Transmission
