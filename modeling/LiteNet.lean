import LiteNet.Library.Transition
import LiteNet.Library.RingWindow
import LiteNet.Library.ByteBuffer
import LiteNet.Library.SelectiveRepeat
import LiteNet.Wire.Constants
import LiteNet.Wire.Packet
import LiteNet.Channels.Base
import LiteNet.Channels.Reliable
import LiteNet.Channels.ReceiveWindow
import LiteNet.Channels.SendQueue
import LiteNet.Channels.Sequenced
import LiteNet.Channels.SequencedLink
import LiteNet.Channels.UserPackets
import LiteNet.Manager.Calls
import LiteNet.Manager.Change
import LiteNet.Manager.Dispatch
import LiteNet.Manager.ReceiveChanges
import LiteNet.Manager.RegistryChanges
import LiteNet.Manager.ShutdownHandshake
import LiteNet.Manager.SimultaneousConnect
import LiteNet.Wire.DataWriter
import LiteNet.Manager.ChannelAddress
import LiteNet.Manager.FragmentRoundTrip
import LiteNet.Manager.MergeRoundTrip
import LiteNet.Library.LinkedList
import LiteNet.Wire.HandshakeRoundTrip
import LiteNet.Manager.SendFrame
import LiteNet.Manager.PingAnswers
import LiteNet.Manager.MtuDiscovery
import LiteNet.Manager.Books
import LiteNet.Manager.PeerRegistry
import LiteNet.Manager.PendingRequests
import LiteNet.Manager.StoredPackets
import LiteNet.Manager.ConnectionNumbers
import LiteNet.Manager.DeliveryNotices
import LiteNet.Manager.Unmerging
import LiteNet.Manager.StalePeers
import LiteNet.Manager.SessionNumbers
import LiteNet.Manager.SequencedAcks
import LiteNet.Manager.PeerNotFound
import LiteNet.Manager.Lifecycle
import LiteNet.Manager.Rejections
import LiteNet.Wire.TypedReads
import LiteNet.Wire.CachedAddress
import LiteNet.Manager.PacketPool
import LiteNet.Manager.NestedMerges
import LiteNet.Manager.MergeOverrun
import LiteNet.Manager.FragmentTable
import LiteNet.Library.RunningAverage
import LiteNet.Manager.Serving
import LiteNet.Manager.RoundTripTime
import LiteNet.Manager.Isolation
import LiteNet.Manager.Network
import LiteNet.Manager.Silence
import LiteNet.Manager.Polling
import LiteNet.Manager.Readers
import LiteNet.Manager.Reconnection
import LiteNet.Manager.KeyedConnect
import LiteNet.Manager.FreshNumbers
import LiteNet.Manager.DatagramReaders
import LiteNet.Manager.HandshakeNumbers
