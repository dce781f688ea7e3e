import Embr.StaleRecord
import Embr.Deadlock
import Embr.Accounting
import Embr.StreamBytes
import Embr.SocketNoise
import Embr.ReceiveEnd
import Embr.EgressModes
import Embr.PullBounds
import Embr.Senders
import Embr.Codecs
import Embr.RecordCodec
import Embr.StaleCache
import Embr.PushSafety
import Embr.Fragments
import Embr.ShortTransfers
import Embr.FlatObject
import Embr.BufferOwner
import Embr.CloseRuns
import Embr.UdpSystem
import Embr.QuicSystem
import Embr.CommandRuns
import Embr.Meeting
import Embr.PushHistory
